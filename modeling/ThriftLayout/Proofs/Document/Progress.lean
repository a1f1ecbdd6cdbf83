import ThriftLayout.Proofs.Document.Origins

/-!
# Reading goes forward

A cursor stands at an index of the tokens (`Cursor.At`): the token it looks at and the one it took
last are there, so no look at the tokens can miss. Every step of the grammar goes forward from one
index to another (`Moves`), and a loop that comes back to its test has taken a token (`Round`).

The grammar is written with tests that a round has gone on, for its recursion to be accepted. These
tests never fail, and without them the loops are what `Loops` says.

Results:

* `Cursor.At.goes`: the index after some tokens.
* `Round.onward`: every round of a loop takes a token.
* `reading_goes_forward`: reading stays inside the tokens, goes forward and comes to their end.
-/
namespace ThriftLayout

open Parse Grammar

/-- The tokens the grammar reads: those without error, and the one at the end. -/
def readable (src : Bytes) : List Token := (lex src).allTokens.filter (·.kind != .error)

/-- A cursor that stands at an index of the tokens: what it looks at is the token there, and what
it took last is the one before, or the first token where none was taken. What is ahead of it leaves
no choice of the index. -/
structure Cursor.At (src : Bytes) (i : Nat) (c : Cursor) : Prop where
  source : c.src = src
  inBounds : i < (readable src).length
  next : (readable src)[i]? = some c.peek
  last : (readable src)[i - 1]? = some c.last
  ahead : c.rest ++ [c.eof] = (readable src).drop i

/-! ## What the grammar does -/

/-- The members that stand in the body of a declaration. -/
inductive IsMember : {α : Type} → Parse α → Prop where
  | enum : IsMember (member enumEntry)
  | senum : IsMember (member senumEntry)
  | field : IsMember field
  | function : IsMember function

/-- The items that stand between parentheses. -/
inductive IsListed : {α : Type} → Parse α → Prop where
  | parameter : IsListed field
  | annotation : IsListed annotEntry

/-- The steps the grammar is made of. -/
inductive IsStep : {α : Type} → Parse α → Prop where
  | accept (k : TokenKind) : IsStep (accept k)
  | expect (k : TokenKind) (what : Bytes) : IsStep (expect k what)
  | separator : IsStep separator
  | typeArguments (depth : Nat) : IsStep (typeArguments (depth + 1))
  | typeRef : IsStep typeRef
  | value : IsStep value
  | listItems : IsStep listItems
  | mapEntries : IsStep mapEntries
  | valueText : IsStep valueText
  | listed {α : Type} {item : Parse α} (h : IsListed item) : IsStep item
  | untilMark {α : Type} {item : Parse α} (h : IsListed item) : IsStep (untilMark .rparen item)
  | annots : IsStep annots
  | fieldId : IsStep fieldId
  | qualifier : IsStep qualifier
  | params : IsStep params
  | memberValue : IsStep memberValue
  | enumEntry : IsStep enumEntry
  | senumEntry : IsStep senumEntry
  | member {α : Type} {item : Parse α} (h : IsMember item) : IsStep item
  | namespaceScope : IsStep namespaceScope
  | header (what : Bytes) : IsStep (orSkip (header what))
  | body {α : Type} {item : Parse α} (h : IsMember item) (opener : Token) :
      IsStep (body opener item)
  | finalAnnots : IsStep finalAnnots
  | decl : IsStep decl

/-- A cursor goes on by a token, by a step of the grammar, whether it gives a result or not, or by
recovery. -/
inductive Moves : Cursor → Cursor → Prop where
  | next (c : Cursor) : Moves c c.advance
  | step {α : Type} {m : Parse α} (h : IsStep m) (c : Cursor) : Moves c (m c).2
  | skipMember (start c : Cursor) : Moves c (Cursor.skipMember start c)
  | skipToDefinition (c : Cursor) : Moves c c.skipToDefinition

/-- The members of a body end before a closing brace, the end or a declaration. -/
def bodyEnds (c : Cursor) : Bool :=
  c.sees (.mark .rbrace) || c.atEnd || c.peek.kind.isDefinition

/-- The cursor behind a member, which is skipped if it could not be read. -/
def behindMember {α : Type} (item : Parse α) (c : Cursor) : Cursor :=
  if (item c).1.isSome then (item c).2 else Cursor.skipMember c (item c).2

/-- An item of a list and the separator behind it. -/
def listItem : Parse Bytes := do
  value
  separator

/-- An entry of a map and the separator behind it. -/
def mapEntry : Parse Bytes := do
  value
  let _ ← expect (.mark .colon) (utf8 "':'")
  value
  separator

/-- A round of a loop of the grammar, from one test of the loop to the next. -/
inductive Round : Cursor → Cursor → Prop where
  /-- The declarations of a document. -/
  | decl {c : Cursor} (h : c.atEnd = false) : Round c (decl c).2
  /-- The members of a body. -/
  | member {α : Type} {item : Parse α} {c : Cursor} (hitem : IsMember item)
      (h : bodyEnds c = false) : Round c (behindMember item c)
  /-- Parameters and annotations. -/
  | listed {α : Type} {item : Parse α} {a : α} {c d : Cursor} (hitem : IsListed item)
      (h : c.sees (.mark .rparen) = false) (ha : item c = (some a, d)) : Round c d
  /-- The items of a list. -/
  | listItem {s : Bytes} {c d : Cursor} (h : c.sees (.mark .rbracket) = false)
      (hs : listItem c = (some s, d)) : Round c d
  /-- The entries of a map. -/
  | mapEntry {s : Bytes} {c d : Cursor} (h : c.sees (.mark .rbrace) = false)
      (hs : mapEntry c = (some s, d)) : Round c d
  /-- Type arguments and what recovery skips. -/
  | token {c : Cursor} (h : c.atEnd = false) : Round c c.advance

/-- The loops of the grammar at a cursor, each by its next round, and the values inside values. -/
structure Loops (c : Cursor) : Prop where
  decls : decls c =
    if c.atEnd then ([], c)
    else ((decl c).1.toList ++ (decls (decl c).2).1, (decls (decl c).2).2)
  members : ∀ {α : Type} {item : Parse α}, IsMember item → members item c =
    if bodyEnds c then ([], c)
    else ((item c).1.toList ++ (members item (behindMember item c)).1,
      (members item (behindMember item c)).2)
  listed : ∀ {α : Type} {item : Parse α}, IsListed item → untilMark .rparen item c =
    (do
      if ← accept (.mark .rparen) then return []
      let a ← item
      let more ← untilMark .rparen item
      return a :: more : Parse (List α)) c
  value : value c =
    if c.atEnd then (none, c.report (noValue c.eof) c.eof)
    else
      match c.peek.kind with
      | .int | .float | .string | .identifier => (some (), c.advance)
      | .mark .plus | .mark .minus =>
        if c.advance.sees .int || c.advance.sees .float then (some (), c.advance.advance)
        else (none, c.advance.report (noValue c.peek) c.peek)
      | .mark .lbracket => listItems c.advance
      | .mark .lbrace => mapEntries c.advance
      | _ => (none, c.report (noValue c.peek) c.peek)
  listItems : listItems c =
    (do
      if ← accept (.mark .rbracket) then return ()
      let _ ← listItem
      listItems : Parse Unit) c
  mapEntries : mapEntries c =
    (do
      if ← accept (.mark .rbrace) then return ()
      let _ ← mapEntry
      mapEntries : Parse Unit) c
  typeArguments : ∀ depth : Nat, typeArguments depth c =
    if c.atEnd then (none, c.report .openTypeArguments c.eof)
    else
      match c.peek.kind with
      | .mark .langle => typeArguments (depth + 1) c.advance
      | .mark .rangle =>
        if depth ≤ 1 then (some (), c.advance) else typeArguments (depth - 1) c.advance
      | .mark .lbrace | .mark .rbrace | .mark .semi =>
        (none, c.advance.report .openTypeArguments c.peek)
      | _ => typeArguments depth c.advance
  skipWhile : ∀ p : Token → Bool, c.skipWhile p =
    if c.atEnd || !p c.peek then c else c.advance.skipWhile p

/-- How the tokens of a source are read. -/
structure ReadsForward (src : Bytes) : Prop where
  /-- Reading starts at the first token. -/
  start : (Cursor.ofLexed src (lex src)).At src 0
  /-- Only the last token is the one at the end, and there the cursor is at its end. -/
  ends : ∀ {i : Nat} {c : Cursor}, c.At src i →
    (c.atEnd = true ↔ c.peek.kind = .eof) ∧ (c.atEnd = true ↔ i = (readable src).length - 1)
  /-- However steps follow one another, the index never goes back and stays in bounds. -/
  forward : ∀ {i : Nat} {c d : Cursor}, c.At src i → Relation.ReflTransGen Moves c d →
    ∃ j, i ≤ j ∧ d.At src j
  /-- A declaration that is read before the end takes a token, also where it fails. -/
  decl : ∀ {i : Nat} {c : Cursor}, c.At src i → c.peek.kind ≠ .eof →
    ∃ j, i < j ∧ (decl c).2.At src j
  /-- A loop that comes back to its test has taken a token. -/
  round : ∀ {i : Nat} {c d : Cursor}, c.At src i → Round c d → ∃ j, i < j ∧ d.At src j
  /-- No loop goes round more often than there are tokens. -/
  finite : ∀ {i : Nat} {c : Cursor} {cs : List Cursor}, c.At src i →
    (c :: cs).IsChain Round → i + cs.length < (readable src).length
  /-- The loops are those of the grammar without a test that a round has gone on. -/
  loops : ∀ {i : Nat} {c : Cursor}, c.At src i → Loops c
  /-- The declarations are read up to the end. -/
  finish : (decls (Cursor.ofLexed src (lex src))).2.At src ((readable src).length - 1)

variable {α : Type} {src : Bytes} {i : Nat} {c d e : Cursor} {m : Parse α} {ts : List Token}
  {fs : List (ParseFault × Token)}

/-! ## Forward and onward -/

namespace Cursor

/-- From one cursor to another over tokens, with any faults. -/
def Forward (c d : Cursor) : Prop := ∃ ts fs, c.Goes ts fs d

/-- From one cursor to another over at least one token. -/
def Onward (c d : Cursor) : Prop := ∃ ts fs, ts ≠ [] ∧ c.Goes ts fs d

theorem Goes.forward (h : c.Goes ts fs d) : c.Forward d := ⟨ts, fs, h⟩

theorem Forward.on (h : c.Forward d) (hc : c.On src) : d.On src := by
  obtain ⟨ts, fs, hgoes⟩ := h
  exact hgoes.on hc

namespace Onward

theorem forward (h : c.Onward d) : c.Forward d := by
  obtain ⟨ts, fs, -, hgoes⟩ := h
  exact hgoes.forward

theorem before (h : c.Onward d) (h' : d.Forward e) : c.Onward e := by
  obtain ⟨ts, fs, hts, hgoes⟩ := h
  obtain ⟨us, gs, hmore⟩ := h'
  exact ⟨ts ++ us, fs ++ gs, List.append_ne_nil_of_left_ne_nil hts us, hgoes.trans hmore⟩

theorem after (h : c.Forward d) (h' : d.Onward e) : c.Onward e := by
  obtain ⟨ts, fs, hgoes⟩ := h
  obtain ⟨us, gs, hus, hmore⟩ := h'
  exact ⟨ts ++ us, fs ++ gs, List.append_ne_nil_of_right_ne_nil ts hus, hgoes.trans hmore⟩

theorem length_lt (h : c.Onward d) : d.rest.length < c.rest.length := by
  obtain ⟨ts, fs, hts, hgoes⟩ := h
  exact hgoes.ne_nil_iff.mp hts

end Onward

theorem advance_forward (c : Cursor) : c.Forward c.advance := by
  obtain ⟨ts, hgoes⟩ := c.exists_goes_advance
  exact hgoes.forward

theorem advance_onward (h : c.atEnd = false) : c.Onward c.advance := by
  obtain ⟨t, ts, hrest⟩ := List.exists_cons_of_ne_nil (by simpa [atEnd] using h)
  exact ⟨[t], [], List.cons_ne_nil t [], goes_advance hrest⟩

theorem skipWhile_forward (p : Token → Bool) (c : Cursor) : c.Forward (c.skipWhile p) := by
  obtain ⟨ts, hgoes⟩ := c.goes_skipWhile p
  exact hgoes.forward

theorem skipMember_forward (start c : Cursor) : c.Forward (skipMember start c) := by
  obtain ⟨ts, hgoes⟩ := (Goes.refl c).skipMember start
  exact hgoes.forward

end Cursor

/-! ## Indices -/

theorem readable_eq (src : Bytes) : readable src = (lex src).good ++ [(lex src).eof] := by
  have heof : (lex src).eof.kind = .eof := by rw [Lexer.lex_eq]
  rw [readable, Lexer.Result.allTokens, List.filter_append, Lexer.Result.good]
  simp [heof]

namespace Cursor

/-- An index is settled by what is ahead and what was taken last. -/
theorem at_of_ahead (hsrc : c.src = src) (hahead : c.rest ++ [c.eof] = (readable src).drop i)
    (hlast : (readable src)[i - 1]? = some c.last) : c.At src i where
  source := hsrc
  inBounds := by
    by_contra hout
    rw [List.drop_of_length_le (by omega)] at hahead
    simp at hahead
  next := by
    rw [← List.head?_drop, ← hahead, peek]
    cases c.rest <;> rfl
  last := hlast
  ahead := hahead

theorem ofLexed_at (src : Bytes) : (ofLexed src (lex src)).At src 0 := by
  refine at_of_ahead rfl (readable_eq src).symm ?_
  rw [readable_eq, ofLexed]
  cases (lex src).good <;> rfl

namespace At

theorem on (h : c.At src i) : c.On src := by
  have hbound := h.inBounds
  have hahead := h.ahead
  rw [readable_eq] at hbound hahead
  rw [List.length_append, List.length_singleton] at hbound
  rw [List.drop_append_of_le_length (by omega)] at hahead
  obtain ⟨hrest, heof⟩ := List.append_inj' hahead rfl
  refine ⟨h.source, ?_, hrest ▸ List.drop_suffix _ _⟩
  rw [List.singleton_inj.mp heof, Lexer.lex_eq]

theorem atEnd_iff (h : c.At src i) : c.atEnd = true ↔ i = (readable src).length - 1 := by
  have hlength := congrArg List.length h.ahead
  rw [List.length_append, List.length_drop, List.length_singleton] at hlength
  have hbound := h.inBounds
  rw [atEnd, List.isEmpty_iff, ← List.length_eq_zero_iff]
  omega

theorem goes (h : c.At src i) (hgoes : c.Goes ts fs d) : d.At src (i + ts.length) := by
  have hsplit : ts ++ (d.rest ++ [d.eof]) = (readable src).drop i := by
    rw [← h.ahead, hgoes.rest, hgoes.eof, List.append_assoc]
  refine at_of_ahead (hgoes.src.trans h.source) ?_ ?_
  · rw [← List.drop_drop, ← hsplit, List.drop_left]
  rcases List.eq_nil_or_concat ts with rfl | ⟨us, t, rfl⟩
  · rw [hgoes.last]
    exact h.last
  · have hat : (readable src)[i + us.length]? = ((readable src).drop i)[us.length]? := by
      rw [List.getElem?_drop]
    rw [hgoes.last, List.concat_eq_append, List.length_append, List.length_singleton,
      ← Nat.add_assoc, Nat.add_sub_cancel, hat, ← hsplit]
    simp

theorem forward (h : c.At src i) (hcd : c.Forward d) : ∃ j, i ≤ j ∧ d.At src j := by
  obtain ⟨ts, fs, hgoes⟩ := hcd
  exact ⟨i + ts.length, Nat.le_add_right i _, h.goes hgoes⟩

theorem onward (h : c.At src i) (hcd : c.Onward d) : ∃ j, i < j ∧ d.At src j := by
  obtain ⟨ts, fs, hts, hgoes⟩ := hcd
  exact ⟨i + ts.length, Nat.lt_add_of_pos_right (List.length_pos_iff.mpr hts), h.goes hgoes⟩

end At

/-- A token that could be read is not the one at the end. -/
theorem On.atEnd_iff (hc : c.On src) : c.atEnd = true ↔ c.peek.kind = .eof := by
  rw [atEnd, List.isEmpty_iff, peek]
  cases hrest : c.rest with
  | nil => exact iff_of_true rfl hc.eof
  | cons t ts =>
    have hmem : t ∈ (lex src).good := hc.rest.subset (hrest ▸ List.mem_cons_self)
    obtain ⟨ps, p, qs, hpieces, hat⟩ := (lex_tokens src).1 t hmem
    have hkind := (Lexer.kind_of_token (s := src) (p := p) (by simp [hpieces]) hat.kind).2
    exact iff_of_false (List.cons_ne_nil t ts) hkind

end Cursor

/-! ## Steps go forward -/

section Steps

variable {Φ : List Token → α → Prop}

theorem Parse.Gives.forward (h : m.Gives c Φ) : c.Forward (m c).2 := by
  obtain ⟨ts, fs, hgoes, -⟩ := h
  exact hgoes.forward

/-- A step that takes tokens where it gives a result. -/
theorem Parse.Gives.onward {a : α} (h : m.Gives c fun ts _ => ts ≠ []) (ha : m c = (some a, d)) :
    c.Onward d := by
  obtain ⟨ts, fs, hgoes, hts⟩ := h
  rw [ha] at hgoes hts
  exact ⟨ts, fs, hts a rfl, hgoes⟩

end Steps

theorem Cursor.Tries.forward {l : Language Token} {r : Option α × Cursor} (h : c.Tries l r) :
    c.Forward r.2 := by
  rcases h with ⟨-, ts, -, hgoes⟩ | ⟨-, ts, fs, -, hgoes⟩
  · exact hgoes.forward
  · exact hgoes.forward

/-- A member takes a token where it is read. -/
theorem IsMember.gives {item : Parse α} (h : IsMember item) (hc : c.On src) :
    item.Gives c fun ts _ => ts ≠ [] := by
  cases h with
  | enum => exact (gives_member hc (gives_enumEntry hc)).imp fun _ _ h => h.nonempty
  | senum => exact (gives_member hc (gives_senumEntry hc)).imp fun _ _ h => h.nonempty
  | field => exact (gives_field hc).imp fun _ _ h => h.nonempty
  | function => exact (gives_function hc).imp fun _ _ h => h.nonempty

theorem IsListed.gives {item : Parse α} (h : IsListed item) (hc : c.On src) :
    item.Gives c fun ts _ => ts ≠ [] := by
  cases h with
  | parameter => exact (gives_field hc).imp fun _ _ h => h.nonempty
  | annotation =>
    refine (gives_annotEntry c hc).imp fun ts _ hts => ?_
    rw [mul_assoc] at hts
    obtain ⟨us, hus, vs, -, rfl⟩ := hts
    exact List.append_ne_nil_of_left_ne_nil (Phrase.ne_nil_of_one hus) vs

theorem IsStep.forward (h : IsStep m) (hc : c.On src) : c.Forward (m c).2 := by
  cases h with
  | accept k =>
    unfold Parse.accept
    split
    · exact c.advance_forward
    · exact (Cursor.Goes.refl c).forward
  | expect k what =>
    unfold Parse.expect
    split
    · exact c.advance_forward
    · exact ((Cursor.Goes.refl c).report _ _).forward
  | separator => exact (gives_separator hc).forward
  | typeArguments depth => exact (tries_go c depth c.last c.rest).forward
  | typeRef => exact (gives_typeRef hc).forward
  | value => exact (gives_value hc).forward
  | listItems => exact (tries_values hc.eof).2.1.forward
  | mapEntries => exact (tries_values hc.eof).2.2.forward
  | valueText => exact (gives_valueText hc).forward
  | listed hitem => exact (hitem.gives hc).forward
  | untilMark hitem => exact (gives_untilMark (fun _ => hitem.gives) .rparen hc).forward
  | annots => exact (gives_annots hc).forward
  | fieldId => exact (gives_fieldId hc).forward
  | qualifier => exact (gives_qualifier hc).forward
  | params => exact (gives_params hc).forward
  | memberValue => exact (gives_memberValue hc).forward
  | enumEntry => exact (gives_enumEntry hc).forward
  | senumEntry => exact (gives_senumEntry hc).forward
  | member hitem => exact (hitem.gives hc).forward
  | namespaceScope => exact (gives_namespaceScope hc).forward
  | header what => exact (gives_header hc what).orSkip.forward
  | body hitem opener => exact (gives_body hc (fun _ => hitem.gives) opener).forward
  | finalAnnots => exact (gives_finalAnnots hc).forward
  | decl => exact (gives_decl hc).forward

theorem Moves.forward (h : Moves c d) (hc : c.On src) : c.Forward d := by
  cases h with
  | next => exact c.advance_forward
  | step hm => exact hm.forward hc
  | skipMember start => exact Cursor.skipMember_forward start c
  | skipToDefinition => exact c.skipWhile_forward _

/-! ## Declarations take a token -/

/-- A step that takes the next token first takes it also where it fails. -/
theorem next_bind_onward {f : Token → Parse α} (hc : c.On src) (h : c.atEnd = false)
    (hf : ∀ t d, d.On src → (f t).Gives d fun _ _ => True) : c.Onward ((next >>= f) c).2 := by
  have hnext := Cursor.advance_onward h
  rw [bind_of_some (show next c = (some c.peek, c.advance) from rfl)]
  exact hnext.before (hf c.peek c.advance (hnext.forward.on hc)).forward

theorem orSkip_onward (h : c.Onward (m c).2) : c.Onward (orSkip m c).2 := by
  unfold orSkip
  split
  · rename_i a d hm
    rwa [hm] at h
  · rename_i d hm
    rw [hm] at h
    exact h.before (d.skipWhile_forward _)

theorem gives_lastPart (hc : c.On src) (g : Cursor → Region) (make : Region → Decl) :
    Gives (do
      let _ ← separator
      let region ← view g
      return make region) c fun _ _ => True :=
  (gives_separator hc).bind hc fun _ _ _ _ _ _ _ => Gives.view g (gives_pure trivial)

section Kinds

variable (hc : c.On src) (h : c.atEnd = false)
include hc h

theorem includeDecl_onward (kind : DeclKind) : c.Onward (includeDecl kind c).2 := by
  refine next_bind_onward hc h fun first d₁ hd₁ => ?_
  refine (gives_expect hd₁ (by decide) _).bind hd₁ fun _ _ d₂ _ hd₂ _ _ => ?_
  exact gives_lastPart hd₂ _ _

theorem namespaceDecl_onward : c.Onward (namespaceDecl c).2 := by
  refine next_bind_onward hc h fun first d₁ hd₁ => ?_
  refine (gives_namespaceScope hd₁).bind hd₁ fun _ _ d₂ _ hd₂ _ _ => ?_
  refine (gives_expect hd₂ (by decide) _).bind hd₂ fun _ _ d₃ _ hd₃ _ _ => ?_
  refine (gives_annots hd₃).bind hd₃ fun _ _ d₄ _ hd₄ _ _ => ?_
  exact gives_lastPart hd₄ _ _

theorem typedefDecl_onward : c.Onward (typedefDecl c).2 := by
  refine next_bind_onward hc h fun first d₁ hd₁ => ?_
  refine (gives_typeRef hd₁).bind hd₁ fun _ _ d₂ _ hd₂ _ _ => ?_
  refine (gives_expect hd₂ (by decide) _).bind hd₂ fun _ _ d₃ _ hd₃ _ _ => ?_
  refine (gives_annots hd₃).bind hd₃ fun _ _ d₄ _ hd₄ _ _ => ?_
  exact gives_lastPart hd₄ _ _

theorem constDecl_onward : c.Onward (constDecl c).2 := by
  refine next_bind_onward hc h fun first d₁ hd₁ => ?_
  refine (gives_typeRef hd₁).bind hd₁ fun _ _ d₂ _ hd₂ _ _ => ?_
  refine (gives_expect hd₂ (by decide) _).bind hd₂ fun _ _ d₃ _ hd₃ _ _ => ?_
  refine (gives_expect hd₃ (by decide) _).bind hd₃ fun _ _ d₄ _ hd₄ _ _ => ?_
  refine (gives_valueText hd₄).bind hd₄ fun _ _ d₅ _ hd₅ _ _ => ?_
  exact gives_lastPart hd₅ _ _

theorem bodyDecl_onward {item : Parse α} (hitem : IsMember item) (kind : DeclKind)
    (what : Bytes) (wrap : List α → DeclBody) : c.Onward (bodyDecl kind what item wrap c).2 := by
  refine next_bind_onward hc h fun first d₁ hd₁ => ?_
  refine (gives_header hd₁ what).orSkip.bind hd₁ fun _ _ d₂ _ hd₂ _ _ => ?_
  refine (gives_body hd₂ (fun _ => hitem.gives) first).bind hd₂ fun _ _ d₃ _ hd₃ _ _ => ?_
  refine (gives_finalAnnots hd₃).bind hd₃ fun _ _ d₄ _ hd₄ _ _ => ?_
  exact gives_lastPart hd₄ _ _

/-- Every declaration takes a token, also one that cannot be read. -/
theorem decl_onward : c.Onward (decl c).2 := by
  unfold decl
  split
  · exact orSkip_onward (includeDecl_onward hc h _)
  · exact orSkip_onward (includeDecl_onward hc h _)
  · exact orSkip_onward (namespaceDecl_onward hc h)
  · exact orSkip_onward (typedefDecl_onward hc h)
  · exact orSkip_onward (constDecl_onward hc h)
  · exact bodyDecl_onward hc h .enum _ _ _
  · exact bodyDecl_onward hc h .senum _ _ _
  · exact bodyDecl_onward hc h .field _ _ _
  · exact bodyDecl_onward hc h .field _ _ _
  · exact bodyDecl_onward hc h .field _ _ _
  · exact bodyDecl_onward hc h .function _ _ _
  · exact orSkip_onward (next_bind_onward hc h fun _ _ _ => gives_fail _ _)

end Kinds

/-! ## Rounds take a token -/

/-- Recovery from a member that has taken nothing takes its first token. -/
theorem skipMember_onward (hgoes : c.Goes ts fs d) (h : bodyEnds c = false) :
    c.Onward (Cursor.skipMember c d) := by
  rw [bodyEnds, Bool.or_eq_false_iff, Bool.or_eq_false_iff] at h
  obtain ⟨⟨hclose, hend⟩, -⟩ := h
  by_cases hts : ts = []
  · have hsame : d.rest = c.rest := hgoes.rest_eq (by rw [hts]; rfl)
    have hopen : d.sees (.mark .rbrace) = false := by
      rw [← hclose, Cursor.sees, Cursor.sees, Cursor.peek, Cursor.peek, hsame, hgoes.eof]
    have hmore : d.atEnd = false := by rw [← hend, Cursor.atEnd, Cursor.atEnd, hsame]
    have hnext := Cursor.Onward.after hgoes.forward (Cursor.advance_onward hmore)
    unfold Cursor.skipMember
    simp only
    rw [if_pos ⟨congrArg List.length hsame, by rw [hopen]; rfl⟩]
    exact hnext.before (d.advance.skipWhile_forward _)
  · have htook : c.Onward d := ⟨ts, fs, hts, hgoes⟩
    exact htook.before (Cursor.skipMember_forward c d)

theorem behindMember_onward {item : Parse α} (hitem : IsMember item) (hc : c.On src)
    (h : bodyEnds c = false) : c.Onward (behindMember item c) := by
  rcases hm : item c with ⟨_ | a, d⟩
  · obtain ⟨ts, fs, hgoes⟩ := (hitem.gives hc).forward
    rw [hm] at hgoes
    rw [behindMember, hm]
    exact skipMember_onward hgoes h
  · rw [behindMember, hm]
    exact (hitem.gives hc).onward hm

theorem gives_listItem (hc : c.On src) : listItem.Gives c fun ts _ => ts ≠ [] := by
  refine (gives_value hc).bind hc fun _ us d _ hd _ hus => ?_
  exact (gives_separator hd).imp fun vs _ _ =>
    List.append_ne_nil_of_left_ne_nil (ne_nil_of_value hus) vs

theorem gives_mapEntry (hc : c.On src) : mapEntry.Gives c fun ts _ => ts ≠ [] := by
  refine (gives_value hc).bind hc fun _ us d₁ _ hd₁ _ hus => ?_
  refine (gives_expect hd₁ (by decide) _).bind hd₁ fun _ _ d₂ _ hd₂ _ _ => ?_
  refine (gives_value hd₂).bind hd₂ fun _ _ d₃ _ hd₃ _ _ => ?_
  exact (gives_separator hd₃).imp fun _ _ _ =>
    List.append_ne_nil_of_left_ne_nil (ne_nil_of_value hus) _

theorem Round.onward (h : Round c d) (hc : c.On src) : c.Onward d := by
  cases h with
  | decl hend => exact decl_onward hc hend
  | member hitem hopen => exact behindMember_onward hitem hc hopen
  | listed hitem _ ha => exact (hitem.gives hc).onward ha
  | listItem _ hs => exact (gives_listItem hc).onward hs
  | mapEntry _ hs => exact (gives_mapEntry hc).onward hs
  | token hend => exact Cursor.advance_onward hend

theorem Round.length_lt (h : Round c d) (hc : c.On src) : d.rest.length < c.rest.length :=
  (h.onward hc).length_lt

/-! ## The loops -/

/-- A loop that ends with a token first looks for it. -/
theorem bind_accept (k : TokenKind) (done more : Parse α) (c : Cursor) :
    (accept k >>= fun found => if found = true then done else more) c =
      if c.sees k then done c.advance else more c := by
  split
  · rename_i hsees
    rw [bind_of_some (accept_of_sees hsees), if_pos rfl]
  · rename_i hsees
    rw [bind_of_some (accept_of_not_sees hsees), if_neg Bool.false_ne_true]

/-- A loop up to a mark without its test, where its item takes tokens. -/
theorem untilMark_eq {item : Parse α} {close : Mark}
    (hitem : ∀ a d, c.sees (.mark close) = false → item c = (some a, d) →
      d.rest.length < c.rest.length) :
    untilMark close item c =
      (do
        if ← accept (.mark close) then return []
        let a ← item
        let more ← untilMark close item
        return a :: more : Parse (List α)) c := by
  rw [untilMark, bind_accept]
  split
  · rfl
  rename_i hsees
  rcases ha : item c with ⟨_ | a, d⟩
  · exact (bind_of_none ha).symm
  · have hlt := hitem a d (Bool.eq_false_iff.mpr hsees) ha
    refine Eq.trans ?_ (bind_of_some ha).symm
    simp only [if_pos hlt]
    rcases hmore : untilMark close item d with ⟨_ | more, e⟩
    · exact (bind_of_none hmore).symm
    · exact (bind_of_some (f := fun more => pure (a :: more)) hmore).symm

theorem exists_separator (hc : c.On src) : ∃ s, separator c = (some s, skipSeparator c) := by
  obtain ⟨s, hs⟩ := Option.isSome_iff_exists.mp (separator_goes hc.eof).1
  exact ⟨s, Prod.ext hs rfl⟩

theorem value_onward {u : Unit} (hc : c.On src) (h : value c = (some u, d)) : c.Onward d :=
  ((gives_value hc).imp fun _ _ => ne_nil_of_value).onward h

theorem listItems_eq (hc : c.On src) : listItems c =
    (do
      if ← accept (.mark .rbracket) then return ()
      let _ ← listItem
      listItems : Parse Unit) c := by
  rw [listItems, bind_accept]
  split
  · rfl
  rename_i hsees
  rcases hvalue : value c with ⟨_ | u, d⟩
  · have hitem : listItem c = (none, d) := bind_of_none hvalue
    exact (bind_of_none hitem).symm
  · obtain ⟨s, hs⟩ := exists_separator ((value_onward hc hvalue).forward.on hc)
    have hitem : listItem c = (some s, skipSeparator d) := (bind_of_some hvalue).trans hs
    have hlt := (Round.listItem (Bool.eq_false_iff.mpr hsees) hitem).length_lt hc
    simp only [if_pos hlt]
    exact (bind_of_some (f := fun _ => listItems) hitem).symm

/-- The key of an entry takes a token, so both tests of the loop hold. -/
theorem mapEntries_eq (hc : c.On src) : mapEntries c =
    (do
      if ← accept (.mark .rbrace) then return ()
      let _ ← mapEntry
      mapEntries : Parse Unit) c := by
  rw [mapEntries, bind_accept]
  split
  · rfl
  rename_i hsees
  rcases hkey : value c with ⟨_ | u, d⟩
  · have hentry : mapEntry c = (none, d) := bind_of_none hkey
    exact (bind_of_none hentry).symm
  have hd := value_onward hc hkey
  have he := hd.before ((IsStep.expect (.mark .colon) (utf8 "':'")).forward (hd.forward.on hc))
  rcases hcolon : expect (.mark .colon) (utf8 "':'") d with ⟨_ | t, e⟩
  · have hentry : mapEntry c = (none, e) := (bind_of_some hkey).trans (bind_of_none hcolon)
    simp only [hcolon]
    exact (bind_of_none hentry).symm
  rw [hcolon] at he
  simp only [hcolon, if_pos he.length_lt]
  rcases hvalue : value e with ⟨_ | u, f⟩
  · have hentry : mapEntry c = (none, f) :=
      (bind_of_some hkey).trans ((bind_of_some hcolon).trans (bind_of_none hvalue))
    exact (bind_of_none hentry).symm
  have hf := value_onward (he.forward.on hc) hvalue
  obtain ⟨s, hsep⟩ := exists_separator ((he.before hf.forward).forward.on hc)
  have hentry : mapEntry c = (some s, skipSeparator f) :=
    (bind_of_some hkey).trans ((bind_of_some hcolon).trans ((bind_of_some hvalue).trans hsep))
  have hlt := (Round.mapEntry (Bool.eq_false_iff.mpr hsees) hentry).length_lt hc
  simp only [if_pos hlt]
  exact (bind_of_some (f := fun _ => mapEntries) hentry).symm

/-- A value inside another stands behind a bracket that was taken. -/
theorem value_at (c : Cursor) : value c =
    if c.atEnd then (none, c.report (noValue c.eof) c.eof)
    else
      match c.peek.kind with
      | .int | .float | .string | .identifier => (some (), c.advance)
      | .mark .plus | .mark .minus =>
        if c.advance.sees .int || c.advance.sees .float then (some (), c.advance.advance)
        else (none, c.advance.report (noValue c.peek) c.peek)
      | .mark .lbracket => listItems c.advance
      | .mark .lbrace => mapEntries c.advance
      | _ => (none, c.report (noValue c.peek) c.peek) := by
  obtain ⟨src, eof, last, rest, faults⟩ := c
  rw [value]
  cases rest with
  | nil => rfl
  | cons t rest => rfl

theorem members_eq {item : Parse α} (hitem : IsMember item) (hc : c.On src) :
    members item c =
      if bodyEnds c then ([], c)
      else ((item c).1.toList ++ (members item (behindMember item c)).1,
        (members item (behindMember item c)).2) := by
  rw [members]
  by_cases hends : bodyEnds c = true
  · rw [if_pos hends]
    exact if_pos hends
  · have hlt := (Round.member hitem (Bool.eq_false_iff.mpr hends)).length_lt hc
    rw [if_neg hends]
    exact (if_neg hends).trans (if_pos hlt)

theorem decls_eq (hc : c.On src) : decls c =
    if c.atEnd then ([], c)
    else ((decl c).1.toList ++ (decls (decl c).2).1, (decls (decl c).2).2) := by
  rw [decls]
  by_cases hend : c.atEnd = true
  · rw [if_pos hend, if_pos hend]
  · have hlt := (Round.decl (Bool.eq_false_iff.mpr hend)).length_lt hc
    rw [if_neg hend, if_neg hend]
    exact if_pos hlt

/-- Taking type arguments does not look at where the cursor was. -/
theorem go_moved (c : Cursor) (l : Token) (r : List Token) (last : Token) (depth : Nat)
    (rest : List Token) :
    typeArguments.go { c with last := l, rest := r } last depth rest =
      typeArguments.go c last depth rest := by
  induction rest generalizing last depth with
  | nil => rfl
  | cons t rest ih => simp only [typeArguments.go, ih]

theorem typeArguments_eq (depth : Nat) (c : Cursor) : typeArguments depth c =
    if c.atEnd then (none, c.report .openTypeArguments c.eof)
    else
      match c.peek.kind with
      | .mark .langle => typeArguments (depth + 1) c.advance
      | .mark .rangle =>
        if depth ≤ 1 then (some (), c.advance) else typeArguments (depth - 1) c.advance
      | .mark .lbrace | .mark .rbrace | .mark .semi =>
        (none, c.advance.report .openTypeArguments c.peek)
      | _ => typeArguments depth c.advance := by
  obtain ⟨src, eof, last, rest, faults⟩ := c
  cases rest with
  | nil => rfl
  | cons t rest =>
    have hgo (depth : Nat) :
        typeArguments depth (Cursor.advance ⟨src, eof, last, t :: rest, faults⟩) =
          typeArguments.go ⟨src, eof, last, t :: rest, faults⟩ t depth rest :=
      go_moved ⟨src, eof, last, t :: rest, faults⟩ t rest t depth rest
    simp only [hgo]
    rfl

theorem skipWhile_go_moved (p : Token → Bool) (c : Cursor) (l : Token) (r : List Token)
    (last : Token) (rest : List Token) :
    Cursor.skipWhile.go p { c with last := l, rest := r } last rest =
      Cursor.skipWhile.go p c last rest := by
  induction rest generalizing last with
  | nil => rfl
  | cons t rest ih => simp only [Cursor.skipWhile.go, ih]

theorem skipWhile_eq (p : Token → Bool) (c : Cursor) : c.skipWhile p =
    if c.atEnd || !p c.peek then c else c.advance.skipWhile p := by
  obtain ⟨src, eof, last, rest, faults⟩ := c
  cases rest with
  | nil => rfl
  | cons t rest =>
    have hgo : (Cursor.advance ⟨src, eof, last, t :: rest, faults⟩).skipWhile p =
        Cursor.skipWhile.go p ⟨src, eof, last, t :: rest, faults⟩ t rest :=
      skipWhile_go_moved p ⟨src, eof, last, t :: rest, faults⟩ t rest t rest
    rw [hgo]
    change Cursor.skipWhile.go p _ _ (t :: rest) = if (!p t) = true then _ else _
    cases hp : p t <;> simp [Cursor.skipWhile.go, hp]

theorem loops_of_on (hc : c.On src) : Loops c where
  decls := decls_eq hc
  members hitem := members_eq hitem hc
  listed hitem := untilMark_eq fun _ _ hsees ha => (Round.listed hitem hsees ha).length_lt hc
  listItems := listItems_eq hc
  mapEntries := mapEntries_eq hc
  value := value_at c
  typeArguments depth := typeArguments_eq depth c
  skipWhile p := skipWhile_eq p c

/-! ## Whole readings -/

theorem moves_forward (hc : c.At src i) (h : Relation.ReflTransGen Moves c d) :
    ∃ j, i ≤ j ∧ d.At src j := by
  induction h with
  | refl => exact ⟨i, Nat.le_refl i, hc⟩
  | tail _ hmove ih =>
    obtain ⟨j, hij, hj⟩ := ih
    obtain ⟨k, hjk, hk⟩ := hj.forward (hmove.forward hj.on)
    exact ⟨k, Nat.le_trans hij hjk, hk⟩

/-- Rounds one after the other are no more than the tokens ahead. -/
theorem rounds_bounded {cs : List Cursor} (hc : c.At src i) (h : (c :: cs).IsChain Round) :
    i + cs.length < (readable src).length := by
  induction cs generalizing c i with
  | nil => exact hc.inBounds
  | cons d cs ih =>
    obtain ⟨hround, hrounds⟩ := List.isChain_cons_cons.mp h
    obtain ⟨j, hij, hd⟩ := hc.onward (hround.onward hc.on)
    have hbound := ih hd hrounds
    rw [List.length_cons]
    omega

theorem decls_atEnd (hc : c.On src) : (decls c).2.atEnd = true := by
  fun_induction decls c with
  | case1 c hend => exact hend
  | case2 c hend r hlt more ih => exact ih ((gives_decl hc).forward.on hc)
  | case3 c hend r hlt => exact absurd ((Round.decl (Bool.eq_false_iff.mpr hend)).length_lt hc) hlt

/-- Whatever bytes a source holds, reading it goes forward over its tokens to their end: no step
gives a token back, every round of every loop takes one, and so the guards against a round that
takes none never decide anything. -/
theorem reading_goes_forward (src : Bytes) : ReadsForward src where
  start := Cursor.ofLexed_at src
  ends hc := ⟨hc.on.atEnd_iff, hc.atEnd_iff⟩
  forward := moves_forward
  decl hc hopen := by
    refine hc.onward (decl_onward hc.on (Bool.eq_false_iff.mpr fun hend => hopen ?_))
    exact hc.on.atEnd_iff.mp hend
  round hc h := hc.onward (h.onward hc.on)
  finite := rounds_bounded
  loops hc := loops_of_on hc.on
  finish := by
    have hstart := Cursor.ofLexed_at src
    obtain ⟨ts, fs, hgoes, -⟩ := decls_strewn hstart.on
    have hfinal := hstart.goes hgoes
    rwa [hfinal.atEnd_iff.mp (decls_atEnd hstart.on)] at hfinal

/-- A mark that starts nothing, a body that is not closed, and in it type arguments, annotations and
a list that are not closed either. -/
def entangled : Bytes := utf8 "> struct S \x7b\n1: map<i32 a\n2: i32 b (\n3: i32 c = [1, -\n"

/-- The mark at the start takes the first of the tokens with it, and all of them are read. -/
theorem reading_goes_forward_entangled :
    (readable entangled).length = 25 ∧
      (∃ j, 0 < j ∧ (decl (Cursor.ofLexed entangled (lex entangled))).2.At entangled j) ∧
        (decls (Cursor.ofLexed entangled (lex entangled))).2.At entangled 24 := by
  have hlength : (readable entangled).length = 25 := by decide +kernel
  have hreads := reading_goes_forward entangled
  refine ⟨hlength, hreads.decl hreads.start (by decide +kernel), ?_⟩
  have hfinish := hreads.finish
  rwa [hlength] at hfinish

end ThriftLayout
