import ThriftLayout.Document
import ThriftLayout.Proofs.Document.Cursors

/-!
# The tokens that faults are reported at

The grammar reports every fault at a token it was given: one that is still to be read, the one at
the end, or one it took before. So what holds of all tokens of a source holds of those that its
diagnostics point to, whatever is wrong with the source.

Results:

* `Parse.Blames.bind`, `Parse.Blames.untilMark`, `Parse.Blames.members`: steps one after another.
* `Grammar.blames_value`, `Grammar.blames_decl`: values and declarations.
* `exists_of_mem_diagnostics`: where a diagnostic of a document comes from.
-/
namespace ThriftLayout

/-- A cursor whose tokens have a property, those included that it reported faults at. -/
structure Cursor.Holds (P : Token → Prop) (c : Cursor) : Prop where
  rest : ∀ t ∈ c.rest, P t
  eof : P c.eof
  faults : ∀ f ∈ c.faults, P f.2

/-- A step that reports faults at tokens with a property only, and whose result has one too. -/
def Parse.Blames {α : Type} (m : Parse α) (P : Token → Prop) (Q : α → Prop) : Prop :=
  ∀ c, c.Holds P → (m c).2.Holds P ∧ ∀ a, (m c).1 = some a → Q a

variable {P : Token → Prop}

namespace Cursor.Holds

variable {c d : Cursor} {t : Token} {ts : List Token}

theorem peek (h : c.Holds P) : P c.peek := by
  unfold Cursor.peek
  cases hrest : c.rest with
  | nil => exact h.eof
  | cons t ts => exact h.rest t (hrest ▸ List.mem_cons_self)

theorem goes (h : c.Holds P) (hgoes : c.Goes ts [] d) : d.Holds P where
  rest t ht := h.rest t (hgoes.rest ▸ List.mem_append_right _ ht)
  eof := hgoes.eof ▸ h.eof
  faults := by
    rw [hgoes.faults, List.append_nil]
    exact h.faults

theorem take (h : c.Holds P) (hrest : c.rest = t :: ts) :
    Cursor.Holds P { c with last := t, rest := ts } := h.goes (Cursor.goes_take hrest)

theorem advance (h : c.Holds P) : c.advance.Holds P := by
  obtain ⟨ts, hgoes⟩ := c.exists_goes_advance
  exact h.goes hgoes

theorem report (h : c.Holds P) (f : ParseFault) (ht : P t) : (c.report f t).Holds P where
  rest := h.rest
  eof := h.eof
  faults g hg := (List.mem_append.mp hg).elim (h.faults g) fun hg => by
    rw [List.mem_singleton.mp hg]
    exact ht

theorem skipWhile (h : c.Holds P) (p : Token → Bool) : (c.skipWhile p).Holds P := by
  obtain ⟨ts, hgoes⟩ := c.goes_skipWhile p
  exact h.goes hgoes

theorem skipMember (h : c.Holds P) (start : Cursor) : (Cursor.skipMember start c).Holds P := by
  obtain ⟨ts, hgoes⟩ := (Cursor.Goes.refl c).skipMember start
  exact h.goes hgoes

end Cursor.Holds

/-! ## Reading steps -/

namespace Parse

variable {α β : Type} {m : Parse α} {Q : α → Prop} {R : β → Prop}

theorem Blames.imp {Q' : α → Prop} (hm : m.Blames P Q) (h : ∀ a, Q a → Q' a) : m.Blames P Q' :=
  fun c hc => ⟨(hm c hc).1, fun a ha => h a ((hm c hc).2 a ha)⟩

theorem blames_pure {a : α} (h : Q a) : Blames (pure a) P Q :=
  fun _ hc => ⟨hc, fun _ ha => Option.some.inj ha ▸ h⟩

theorem blames_fail (f : ParseFault) {t : Token} (ht : P t) : Blames (fail f t : Parse α) P Q :=
  fun _ hc => ⟨hc.report f ht, nofun⟩

theorem Blames.bind {f : α → Parse β} (hm : m.Blames P Q)
    (hf : ∀ a, Q a → (f a).Blames P R) : (m >>= f).Blames P R := by
  intro c hc
  obtain ⟨hd, hQ⟩ := hm c hc
  rcases hrun : m c with ⟨_ | a, d⟩
  · rw [hrun] at hd
    rw [bind_of_none hrun]
    exact ⟨hd, nofun⟩
  · rw [hrun] at hd hQ
    rw [bind_of_some hrun]
    exact hf a (hQ a rfl) d hd

theorem blames_view (f : Cursor → α) : (view f).Blames P fun _ => True :=
  fun _ hc => ⟨hc, fun _ _ => trivial⟩

theorem blames_peek : peek.Blames P P :=
  fun _ hc => ⟨hc, fun _ ht => Option.some.inj ht ▸ hc.peek⟩

theorem blames_next : next.Blames P P :=
  fun _ hc => ⟨hc.advance, fun _ ht => Option.some.inj ht ▸ hc.peek⟩

theorem blames_accept (k : TokenKind) : (accept k).Blames P fun _ => True := by
  intro c hc
  unfold accept
  split
  · exact ⟨hc.advance, fun _ _ => trivial⟩
  · exact ⟨hc, fun _ _ => trivial⟩

theorem blames_expect (k : TokenKind) (what : Bytes) : (expect k what).Blames P P := by
  intro c hc
  unfold expect
  split
  · exact ⟨hc.advance, fun _ ht => Option.some.inj ht ▸ hc.peek⟩
  · exact ⟨hc.report _ hc.peek, nofun⟩

theorem of_eq {r : Option α × Cursor} {a? : Option α} {d : Cursor} (h : r = (a?, d))
    (hr : r.2.Holds P) : d.Holds P := by
  rw [h] at hr
  exact hr

theorem Blames.orSkip (hm : m.Blames P Q) : (orSkip m).Blames P Q := by
  intro c hc
  obtain ⟨hd, hQ⟩ := hm c hc
  unfold Parse.orSkip
  rcases hrun : m c with ⟨_ | a, d⟩
  · rw [hrun] at hd
    exact ⟨hd.skipWhile _, nofun⟩
  · rw [hrun] at hd hQ
    exact ⟨hd, hQ⟩

theorem Blames.untilMark (hm : m.Blames P Q) (close : Mark) :
    Blames (untilMark close m) P fun _ => True := by
  intro c hc
  refine ⟨?_, fun _ _ => trivial⟩
  fun_induction Parse.untilMark close m c with
  | case1 c => exact hc.advance
  | case2 c _ d hd => exact of_eq hd (hm c hc).1
  | case3 c _ a d hd hlt as e he ih => exact of_eq he (ih (of_eq hd (hm c hc).1))
  | case4 c _ a d hd hlt e he ih => exact of_eq he (ih (of_eq hd (hm c hc).1))
  | case5 c _ a d hd => exact of_eq hd (hm c hc).1

/-- Members that cannot be read are skipped, and skipping reports nothing. -/
theorem Blames.members (hm : m.Blames P Q) {c : Cursor} (hc : c.Holds P) :
    (members m c).2.Holds P := by
  have hone : ∀ c : Cursor, c.Holds P →
      (if (m c).1.isSome then (m c).2 else Cursor.skipMember c (m c).2).Holds P := by
    intro c hc
    split
    · exact (hm c hc).1
    · exact (hm c hc).1.skipMember c
  fun_induction Parse.members m c with
  | case1 c => exact hc
  | case2 c _ r d hlt more ih => exact ih (hone c hc)
  | case3 c _ r d => exact hone c hc

end Parse

/-! ## The grammar -/

namespace Grammar

open Parse

theorem blames_separator : separator.Blames P fun _ => True := by
  unfold separator
  refine (blames_accept _).bind fun taken _ => ?_
  split
  · exact blames_pure trivial
  refine (blames_accept _).bind fun taken _ => ?_
  split <;> exact blames_pure trivial

theorem holds_skipSeparator {c : Cursor} (hc : c.Holds P) : (skipSeparator c).Holds P :=
  (blames_separator c hc).1

theorem blames_typeArguments (depth : Nat) :
    Blames (typeArguments depth) P fun _ => True := by
  intro c hc
  refine ⟨?_, fun _ _ => trivial⟩
  have hgo : ∀ (ts : List Token) (last : Token) (depth : Nat), (∀ t ∈ ts, P t) →
      (typeArguments.go c last depth ts).2.Holds P := by
    intro ts
    induction ts with
    | nil =>
      intro last depth _
      have hend : Cursor.Holds P { c with last := last, rest := [] } :=
        ⟨List.forall_mem_nil _, hc.eof, hc.faults⟩
      exact hend.report _ hc.eof
    | cons t ts ih =>
      intro last depth hts
      obtain ⟨ht, hrest⟩ := List.forall_mem_cons.mp hts
      have htaken : Cursor.Holds P { c with last := t, rest := ts } := ⟨hrest, hc.eof, hc.faults⟩
      unfold typeArguments.go
      simp only
      split
      · exact ih t _ hrest
      · split
        · exact htaken
        · exact ih t _ hrest
      · exact htaken.report _ ht
      · exact htaken.report _ ht
      · exact htaken.report _ ht
      · exact ih t _ hrest
  exact hgo c.rest c.last depth hc.rest

theorem blames_typeRef : typeRef.Blames P fun _ => True := by
  unfold typeRef
  refine (blames_expect _ _).bind fun first _ => (blames_view _).bind fun angle _ => ?_
  split
  · exact (blames_typeArguments 0).bind fun _ _ => blames_view _
  · exact blames_view _

section Values

variable {c : Cursor} (hc : c.Holds P)
include hc

theorem holds_value_step
    (hlist : ∀ d : Cursor, d.rest.length < c.rest.length → d.Holds P → (listItems d).2.Holds P)
    (hmap : ∀ d : Cursor, d.rest.length < c.rest.length → d.Holds P → (mapEntries d).2.Holds P) :
    (value c).2.Holds P := by
  unfold value
  split
  · exact hc.report _ hc.eof
  rename_i t ts hrest
  have htaken := hc.take hrest
  have ht : P t := hc.rest t (hrest ▸ List.mem_cons_self)
  have hlt : ts.length < c.rest.length := by
    rw [hrest]
    exact Nat.lt_succ_self _
  have hsign : ∀ b : Bool, (if b then
      (some (), ({ c with last := t, rest := ts } : Cursor).advance)
      else (none, ({ c with last := t, rest := ts } : Cursor).report (noValue t) t)).2.Holds P := by
    intro b
    cases b with
    | true => exact htaken.advance
    | false => exact htaken.report _ ht
  simp only
  split
  · exact htaken
  · exact htaken
  · exact htaken
  · exact htaken
  · exact hsign _
  · exact hsign _
  · exact hlist _ hlt htaken
  · exact hmap _ hlt htaken
  · exact hc.report _ ht

theorem holds_listItems_step (hvalue : (value c).2.Holds P)
    (hlist : ∀ d : Cursor, d.rest.length < c.rest.length → d.Holds P → (listItems d).2.Holds P) :
    (listItems c).2.Holds P := by
  unfold listItems
  split
  · exact hc.advance
  split
  · rename_i d hd
    exact of_eq hd hvalue
  · rename_i d hd
    have hd : d.Holds P := of_eq hd hvalue
    split
    · rename_i hlt
      exact hlist _ hlt (holds_skipSeparator hd)
    · exact hd

theorem holds_mapEntries_step
    (hvalue : ∀ d : Cursor, d.rest.length ≤ c.rest.length → d.Holds P → (value d).2.Holds P)
    (hmap : ∀ d : Cursor, d.rest.length < c.rest.length → d.Holds P → (mapEntries d).2.Holds P) :
    (mapEntries c).2.Holds P := by
  have hkey := hvalue c (Nat.le_refl _) hc
  unfold mapEntries
  split
  · exact hc.advance
  split
  · rename_i d hd
    exact of_eq hd hkey
  rename_i d hd
  have hd : d.Holds P := of_eq hd hkey
  have hcolon := (blames_expect (.mark .colon) (utf8 "':'") d hd).1
  split
  · rename_i e he
    exact of_eq he hcolon
  rename_i e he
  have he : e.Holds P := of_eq he hcolon
  split
  · rename_i hlt
    have hentry := hvalue e (Nat.le_of_lt hlt) he
    split
    · rename_i f hf
      exact of_eq hf hentry
    · rename_i f hf
      have hf : f.Holds P := of_eq hf hentry
      split
      · rename_i hlt
        exact hmap _ hlt (holds_skipSeparator hf)
      · exact hf
  · exact he

end Values

/-- Values, lists and maps are taken together, by the number of tokens that are left. -/
theorem holds_values {c : Cursor} (hc : c.Holds P) : (value c).2.Holds P ∧
    (listItems c).2.Holds P ∧ (mapEntries c).2.Holds P := by
  induction hn : c.rest.length using Nat.strongRecOn generalizing c with
  | ind n ih =>
    subst hn
    have hlist : ∀ d : Cursor, d.rest.length < c.rest.length → d.Holds P →
        (listItems d).2.Holds P := fun d hlt hd => (ih _ hlt hd rfl).2.1
    have hmap : ∀ d : Cursor, d.rest.length < c.rest.length → d.Holds P →
        (mapEntries d).2.Holds P := fun d hlt hd => (ih _ hlt hd rfl).2.2
    have hvalue : ∀ d : Cursor, d.rest.length ≤ c.rest.length → d.Holds P →
        (value d).2.Holds P := fun d hle hd =>
      holds_value_step hd (fun e he => hlist e (Nat.lt_of_lt_of_le he hle))
        (fun e he => hmap e (Nat.lt_of_lt_of_le he hle))
    exact ⟨hvalue c (Nat.le_refl _) hc,
      holds_listItems_step hc (hvalue c (Nat.le_refl _) hc) hlist,
      holds_mapEntries_step hc hvalue hmap⟩

theorem blames_value : Blames value P fun _ => True :=
  fun _ hc => ⟨(holds_values hc).1, fun _ _ => trivial⟩

theorem blames_valueText : valueText.Blames P fun _ => True := by
  unfold valueText
  exact blames_peek.bind fun first _ => blames_value.bind fun _ _ => blames_view _

theorem blames_annotEntry : annotEntry.Blames P fun _ => True := by
  unfold annotEntry
  refine (blames_expect _ _).bind fun _ _ => (blames_accept _).bind fun taken _ => ?_
  have hend : Blames (do let _ ← separator) P fun _ => True :=
    blames_separator.bind fun _ _ => blames_pure trivial
  split
  · exact blames_value.bind fun _ _ => hend
  · exact hend

theorem blames_annots : annots.Blames P fun _ => True := by
  unfold annots
  refine blames_peek.bind fun first _ => (blames_accept _).bind fun taken _ => ?_
  split
  · exact (blames_annotEntry.untilMark .rparen).bind fun _ _ => blames_view _
  · exact blames_pure trivial

theorem blames_fieldId : fieldId.Blames P fun _ => True := by
  unfold fieldId
  refine blames_peek.bind fun first _ => ?_
  split
  · exact (blames_accept _).bind fun _ _ => (blames_expect _ _).bind fun _ _ =>
      (blames_view _).bind fun id _ => (blames_expect _ _).bind fun _ _ => blames_pure trivial
  · exact blames_pure trivial

theorem blames_qualifier : qualifier.Blames P fun _ => True := by
  unfold qualifier
  refine blames_peek.bind fun t _ => ?_
  split
  · exact blames_next.bind fun t _ => blames_pure trivial
  · exact blames_pure trivial

theorem blames_field : field.Blames P fun _ => True := by
  unfold field
  refine blames_peek.bind fun first _ => blames_fieldId.bind fun id _ =>
    blames_qualifier.bind fun qual _ => blames_typeRef.bind fun type _ =>
    (blames_expect _ _).bind fun name _ => (blames_accept _).bind fun taken _ => ?_
  extract_lets rest
  have hrest : ∀ default, (rest default).Blames P fun _ => True := fun default =>
    blames_annots.bind fun annot _ => blames_separator.bind fun sep _ =>
      (blames_view _).bind fun region _ => blames_pure trivial
  split
  · exact blames_valueText.bind fun default _ => hrest default
  · exact hrest []

theorem blames_memberValue : memberValue.Blames P fun _ => True := by
  unfold memberValue
  exact blames_peek.bind fun first _ => (blames_accept _).bind fun _ _ =>
    (blames_expect _ _).bind fun _ _ => blames_view _

theorem blames_enumEntry : enumEntry.Blames P fun _ => True := by
  unfold enumEntry
  refine (blames_expect _ _).bind fun name _ => (blames_accept _).bind fun taken _ => ?_
  split
  · exact blames_memberValue.bind fun number _ => blames_pure trivial
  · exact blames_pure trivial

theorem blames_senumEntry : senumEntry.Blames P fun _ => True := by
  unfold senumEntry
  exact (blames_expect _ _).bind fun name _ => blames_pure trivial

theorem blames_member {entry : Parse (Bytes × Bytes)} (hentry : entry.Blames P fun _ => True) :
    (member entry).Blames P fun _ => True := by
  unfold member
  exact blames_peek.bind fun first _ => hentry.bind fun e _ => blames_annots.bind fun annot _ =>
    blames_separator.bind fun sep _ => (blames_view _).bind fun region _ => blames_pure trivial

theorem blames_params : params.Blames P fun _ => True := by
  unfold params
  exact (blames_expect _ _).bind fun _ _ => blames_field.untilMark .rparen

theorem blames_function : function.Blames P fun _ => True := by
  unfold function
  refine blames_peek.bind fun first _ => (blames_accept _).bind fun taken _ => ?_
  extract_lets rest
  have hrest : ∀ oneway, (rest oneway).Blames P fun _ => True := by
    intro oneway
    refine blames_typeRef.bind fun returnType _ => (blames_expect _ _).bind fun name _ =>
      blames_params.bind fun ps _ => (blames_accept _).bind fun taken _ => ?_
    extract_lets last
    have hlast : ∀ throws, (last throws).Blames P fun _ => True := fun throws =>
      blames_annots.bind fun annot _ => blames_separator.bind fun _ _ =>
        (blames_view _).bind fun _ _ => blames_pure trivial
    split
    · exact blames_params.bind fun throws _ => hlast throws
    · exact hlast []
  split
  · exact hrest true
  · exact (blames_accept _).bind fun oneway _ => hrest oneway

/-! ## Declarations -/

theorem blames_declEnd {first : Token} (make : Region → Decl) :
    Blames (do
      let _ ← separator
      let region ← view (·.regionFrom first)
      return make region) P fun _ => True :=
  blames_separator.bind fun _ _ => (blames_view _).bind fun _ _ => blames_pure trivial

theorem blames_includeDecl (kind : DeclKind) : (includeDecl kind).Blames P fun _ => True := by
  unfold includeDecl
  exact blames_next.bind fun first _ => (blames_expect _ _).bind fun path _ => blames_declEnd _

theorem blames_namespaceScope : namespaceScope.Blames P fun _ => True := by
  unfold namespaceScope
  refine blames_peek.bind fun scope hscope => ?_
  split
  · exact blames_next.imp fun _ _ => trivial
  · exact blames_fail _ hscope

theorem blames_namespaceDecl : namespaceDecl.Blames P fun _ => True := by
  unfold namespaceDecl
  exact blames_next.bind fun first _ => blames_namespaceScope.bind fun scope _ =>
    (blames_expect _ _).bind fun name _ => blames_annots.bind fun annot _ => blames_declEnd _

theorem blames_typedefDecl : typedefDecl.Blames P fun _ => True := by
  unfold typedefDecl
  exact blames_next.bind fun first _ => blames_typeRef.bind fun type _ =>
    (blames_expect _ _).bind fun name _ => blames_annots.bind fun annot _ => blames_declEnd _

theorem blames_constDecl : constDecl.Blames P fun _ => True := by
  unfold constDecl
  exact blames_next.bind fun first _ => blames_typeRef.bind fun type _ =>
    (blames_expect _ _).bind fun name _ => (blames_expect _ _).bind fun _ _ =>
    blames_valueText.bind fun val _ => blames_declEnd _

theorem blames_header (what : Bytes) : (header what).Blames P fun _ => True := by
  unfold header
  refine (blames_expect _ _).bind fun name _ => (blames_accept _).bind fun taken _ => ?_
  extract_lets rest
  have hrest : ∀ base, (rest base).Blames P fun _ => True := by
    intro base
    refine blames_peek.bind fun t _ => ?_
    extract_lets last
    have hlast : (last ()).Blames P fun _ => True :=
      (blames_expect _ _).bind fun _ _ => blames_pure trivial
    split
    · exact blames_next.bind fun _ _ => hlast
    · exact hlast
  split
  · exact (blames_expect _ _).bind fun base _ => hrest _
  · exact hrest _

/-- A body that is not closed is reported at the token that opened it. -/
theorem blames_body {α : Type} {item : Parse α} (hitem : item.Blames P fun _ => True)
    {opener : Token} (hopener : P opener) : (body opener item).Blames P fun _ => True := by
  intro c hc
  have hmembers := hitem.members hc
  unfold body
  simp only
  split
  · exact ⟨hmembers.advance, fun _ _ => trivial⟩
  · exact ⟨hmembers.report _ hopener, fun _ _ => trivial⟩

theorem blames_finalAnnots : finalAnnots.Blames P fun _ => True :=
  fun c hc => ⟨(blames_annots c hc).1, fun _ _ => trivial⟩

theorem blames_bodyDecl {α : Type} {item : Parse α} (hitem : item.Blames P fun _ => True)
    (kind : DeclKind) (what : Bytes) (wrap : List α → DeclBody) :
    (bodyDecl kind what item wrap).Blames P fun _ => True := by
  unfold bodyDecl
  exact blames_next.bind fun first hfirst => (blames_header what).orSkip.bind fun ⟨name, base⟩ _ =>
    (blames_body hitem hfirst).bind fun items _ => blames_finalAnnots.bind fun annot _ =>
    blames_declEnd _

theorem blames_stray : stray.Blames P fun _ => True := by
  unfold stray
  exact blames_next.bind fun t ht => blames_fail _ ht

theorem blames_decl : decl.Blames P fun _ => True := by
  intro c hc
  unfold decl
  split
  · exact (blames_includeDecl _).orSkip c hc
  · exact (blames_includeDecl _).orSkip c hc
  · exact blames_namespaceDecl.orSkip c hc
  · exact blames_typedefDecl.orSkip c hc
  · exact blames_constDecl.orSkip c hc
  · exact blames_bodyDecl (blames_member blames_enumEntry) _ _ _ c hc
  · exact blames_bodyDecl (blames_member blames_senumEntry) _ _ _ c hc
  · exact blames_bodyDecl blames_field _ _ _ c hc
  · exact blames_bodyDecl blames_field _ _ _ c hc
  · exact blames_bodyDecl blames_field _ _ _ c hc
  · exact blames_bodyDecl blames_function _ _ _ c hc
  · exact blames_stray.orSkip c hc

theorem holds_decls {c : Cursor} (hc : c.Holds P) : (decls c).2.Holds P := by
  fun_induction decls c with
  | case1 c => exact hc
  | case2 c _ r hlt more ih => exact ih (blames_decl c hc).1
  | case3 c _ r => exact (blames_decl c hc).1

end Grammar

/-! ## Documents -/

/-- A diagnostic of a document is about a fault of the lexer, or about one of the grammar at a token
of the source. -/
theorem exists_of_mem_diagnostics {uri src : Bytes} {d : Diagnostic}
    (h : d ∈ (Document.parse uri src).diagnostics) :
    (∃ l ∈ (lex src).faults, d = l.diagnostic) ∨
      ∃ f, ∃ t ∈ (lex src).allTokens, d = ParseFault.diagnostic f t := by
  have hstart : (Cursor.ofLexed src (lex src)).Holds (· ∈ (lex src).allTokens) :=
    { rest := fun t ht => List.mem_append_left _ (List.mem_filter.mp ht).1
      eof := List.mem_append_right _ (List.mem_singleton_self _)
      faults := List.forall_mem_nil _ }
  rcases List.mem_append.mp h with h | h
  · obtain ⟨l, hl, rfl⟩ := List.mem_map.mp h
    exact .inl ⟨l, hl, rfl⟩
  · obtain ⟨⟨f, t⟩, hf, rfl⟩ := List.mem_map.mp h
    exact .inr ⟨f, t, (Grammar.holds_decls hstart).faults _ hf, rfl⟩

end ThriftLayout
