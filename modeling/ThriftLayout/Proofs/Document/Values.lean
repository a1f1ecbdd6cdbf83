import ThriftLayout.Proofs.Document.Cursors
import ThriftLayout.Proofs.Document.Phrases

/-!
# Separators, type arguments and constant values

These steps are written out on the cursor and call themselves, so each of them is compared with its
phrase on its own: whatever stands at the cursor, a step takes a phrase or reports a fault, and a
phrase that stands there is taken.

Results:

* `Grammar.tries_typeArguments`, `Grammar.typeArguments_of_mem`.
* `Grammar.tries_value`, `Grammar.takes_value`.
-/
namespace ThriftLayout

variable {c d : Cursor} {ts rest : List Token}

/-- A step takes a phrase, or it fails with a fault. -/
def Cursor.Tries {α : Type} (c : Cursor) (l : Language Token) (r : Option α × Cursor) : Prop :=
  (r.1.isSome ∧ ∃ ts ∈ l, c.Goes ts [] r.2) ∨ (r.1 = none ∧ ∃ ts fs, fs ≠ [] ∧ c.Goes ts fs r.2)

/-- The first of some tokens is of other kinds. -/
def Shuns (ks : List TokenKind) (ts : List Token) : Prop := ∀ t ∈ ts.head?, t.kind ∉ ks

theorem shuns_cons {ks : List TokenKind} {t : Token} (h : t.kind ∉ ks) : Shuns ks (t :: ts) := by
  intro u hu
  rwa [← Option.some.inj hu]

namespace Cursor

theorem sees_of_cons {t : Token} (h : c.rest = t :: ts) (k : TokenKind) :
    c.sees k = (t.kind == k) := by
  rw [sees, peek_of_cons h]

theorem not_sees {ks : List TokenKind} {k : TokenKind} (hc : c.eof.kind = .eof)
    (h : Shuns ks c.rest) (hk : k ∈ ks) (hne : k ≠ .eof) : c.sees k ≠ true := by
  intro hsees
  have hpeek : c.peek.kind = k := eq_of_beq hsees
  obtain ⟨ts, hrest⟩ := cons_of_peek hc (by rwa [hpeek])
  exact h c.peek (by rw [hrest]; rfl) (by rwa [hpeek])

end Cursor

namespace Cursor.Tries

variable {α β : Type} {l m : Language Token} {r : Option α × Cursor} {r' : Option β × Cursor}

theorem fault (f : ParseFault) (t : Token) (h : c.Goes ts [] d) :
    c.Tries l ((none : Option α), d.report f t) :=
  .inr ⟨rfl, ts, [(f, t)], List.cons_ne_nil _ _, h.report f t⟩

/-- What is taken in front does not change how the rest goes. -/
theorem after (hts : c.Goes ts [] d) (h : d.Tries l r) (hl : ∀ us ∈ l, ts ++ us ∈ m) :
    c.Tries m r := by
  rcases h with ⟨hr, us, hus, hgoes⟩ | ⟨hr, us, fs, hfs, hgoes⟩
  · exact .inl ⟨hr, ts ++ us, hl us hus, hts.trans hgoes⟩
  · exact .inr ⟨hr, ts ++ us, fs, hfs, hts.trans hgoes⟩

theorem of_none (h : c.Tries l ((none : Option α), d)) : c.Tries m ((none : Option β), d) := by
  rcases h with ⟨hr, -⟩ | ⟨-, h⟩
  · exact nomatch hr
  · exact .inr ⟨rfl, h⟩

theorem of_some {a : α} (h : c.Tries l (some a, d)) : ∃ ts ∈ l, c.Goes ts [] d := by
  rcases h with ⟨-, h⟩ | ⟨hr, -⟩
  · exact h
  · exact nomatch hr

end Cursor.Tries

theorem Parse.tries_expect (hc : c.eof.kind = .eof) {k : TokenKind} (hk : k ≠ .eof)
    (what : Bytes) : c.Tries (Phrase.one k) (expect k what c) := by
  unfold expect
  split
  · rename_i hsees
    have hpeek : c.peek.kind = k := eq_of_beq hsees
    exact .inl ⟨rfl, [c.peek], Phrase.singleton_mem hpeek,
      Cursor.goes_advance_of_peek hc (by rwa [hpeek])⟩
  · exact .fault _ _ (.refl c)

theorem Parse.expect_of_cons {k : TokenKind} {t : Token} (ht : t.kind = k)
    (h : c.rest = t :: ts) (what : Bytes) : expect k what c = (some t, c.advance) := by
  rw [expect, if_pos (by rw [Cursor.sees_of_cons h, ht]; exact beq_self_eq_true k),
    Cursor.peek_of_cons h]

namespace Grammar

open Phrase Computability

/-! ## Separators -/

theorem separator_goes (hc : c.eof.kind = .eof) :
    (separator c).1.isSome ∧ ∃ ts ∈ optional Phrase.separator, c.Goes ts [] (separator c).2 := by
  have htaken : ∀ m : Mark, c.sees (.mark m) = true → c.Goes [c.peek] [] c.advance ∧
      [c.peek] ∈ mark m := by
    intro m hsees
    have hpeek : c.peek.kind = .mark m := eq_of_beq hsees
    exact ⟨Cursor.goes_advance_of_peek hc (by rw [hpeek]; exact nofun), singleton_mem hpeek⟩
  unfold separator
  by_cases hcomma : c.sees (.mark .comma) = true
  · rw [Parse.bind_of_some (Parse.accept_of_sees hcomma)]
    exact ⟨rfl, _, .inr (.inl (htaken _ hcomma).2), (htaken _ hcomma).1⟩
  rw [Parse.bind_of_some (Parse.accept_of_not_sees hcomma), if_neg Bool.false_ne_true]
  by_cases hsemi : c.sees (.mark .semi) = true
  · rw [Parse.bind_of_some (Parse.accept_of_sees hsemi)]
    exact ⟨rfl, _, .inr (.inr (htaken _ hsemi).2), (htaken _ hsemi).1⟩
  · rw [Parse.bind_of_some (Parse.accept_of_not_sees hsemi)]
    exact ⟨rfl, [], nil_mem_optional, .refl c⟩

theorem separator_of_mem (hc : c.eof.kind = .eof) (h : ts ∈ optional Phrase.separator)
    (hrest : c.rest = ts ++ rest) (hshuns : Shuns [.mark .comma, .mark .semi] rest) :
    ∃ s d, separator c = (some s, d) ∧ c.Goes ts [] d := by
  unfold separator
  rcases h with rfl | ⟨t, rfl, ht⟩ | ⟨t, rfl, ht⟩
  · rw [List.nil_append] at hrest
    rw [← hrest] at hshuns
    have hcomma := Cursor.not_sees (k := .mark .comma) hc hshuns (by decide) nofun
    have hsemi := Cursor.not_sees (k := .mark .semi) hc hshuns (by decide) nofun
    rw [Parse.bind_of_some (Parse.accept_of_not_sees hcomma), if_neg Bool.false_ne_true,
      Parse.bind_of_some (Parse.accept_of_not_sees hsemi)]
    exact ⟨_, _, rfl, .refl c⟩
  · have hcomma : c.sees (.mark .comma) = true := by rw [Cursor.sees_of_cons hrest, ht]; rfl
    rw [Parse.bind_of_some (Parse.accept_of_sees hcomma)]
    exact ⟨_, _, rfl, Cursor.goes_advance hrest⟩
  · have hcomma : c.sees (.mark .comma) ≠ true := by
      rw [Cursor.sees_of_cons hrest, ht]
      decide
    have hsemi : c.sees (.mark .semi) = true := by rw [Cursor.sees_of_cons hrest, ht]; rfl
    rw [Parse.bind_of_some (Parse.accept_of_not_sees hcomma), if_neg Bool.false_ne_true,
      Parse.bind_of_some (Parse.accept_of_sees hsemi)]
    exact ⟨_, _, rfl, Cursor.goes_advance hrest⟩

/-! ## Type arguments -/

/-- What closes some open brackets. -/
def closing : Nat → Language Token
  | 0 => 1
  | n + 1 => Phrase.nested * (mark .rangle * closing n)

theorem token_mem_closing {t : Token} {n : Nat} (ht : t.kind ∉ argumentMarks)
    (h : ts ∈ closing (n + 1)) : t :: ts ∈ closing (n + 1) := by
  obtain ⟨us, hus, vs, hvs, rfl⟩ := h
  exact Phrase.mul_mem (l := Phrase.nested) (.token ht hus) hvs

theorem langle_mem_closing {t : Token} {n : Nat} (ht : t.kind = .mark .langle)
    (h : ts ∈ closing (n + 2)) : t :: ts ∈ closing (n + 1) := by
  obtain ⟨us, hus, _, ⟨_, ⟨r, rfl, hr⟩, _, ⟨vs, hvs, ws, hws, rfl⟩, rfl⟩, rfl⟩ := h
  rw [closing]
  simpa using Phrase.mul_mem (l := Phrase.nested) (.group ht hus hr hvs) hws

theorem rangle_mem_closing {t : Token} {n : Nat} (ht : t.kind = .mark .rangle)
    (h : ts ∈ closing n) : t :: ts ∈ closing (n + 1) :=
  Phrase.mul_mem (l := Phrase.nested) IsNested.nil (cons_mem_mul ht h)

/-- The tokens at a cursor go on until the open brackets are closed. -/
theorem tries_go (c : Cursor) (n : Nat) (last : Token) (rest : List Token) :
    Cursor.Tries { c with last := last, rest := rest } (closing (n + 1))
      (typeArguments.go c last (n + 1) rest) := by
  induction rest generalizing n last with
  | nil => exact .fault _ _ (.refl _)
  | cons t rest ih =>
    have htake : Cursor.Goes { c with last := last, rest := t :: rest } [t] []
        { c with last := t, rest := rest } := Cursor.goes_take rfl
    unfold typeArguments.go
    simp only
    split
    · rename_i hkind
      exact .after htake (ih (n + 1) t) fun us hus => langle_mem_closing hkind hus
    · rename_i hkind
      split
      · rename_i hdepth
        obtain rfl : n = 0 := by omega
        exact .inl ⟨rfl, [t], rangle_mem_closing hkind Language.nil_mem_one, htake⟩
      · rename_i hdepth
        obtain ⟨n, rfl⟩ : ∃ m, n = m + 1 := ⟨n - 1, by omega⟩
        exact .after htake (ih n t) fun us hus => rangle_mem_closing hkind hus
    · exact .fault _ _ htake
    · exact .fault _ _ htake
    · exact .fault _ _ htake
    · rename_i hl hr hlb hrb hs
      refine .after htake (ih n t) fun us hus => token_mem_closing ?_ hus
      simpa [argumentMarks] using ⟨hl, hr, hlb, hrb, hs⟩

theorem tries_typeArguments (h : c.sees (.mark .langle) = true) (hc : c.eof.kind = .eof) :
    c.Tries arguments (typeArguments 0 c) := by
  have hkind : c.peek.kind = .mark .langle := eq_of_beq h
  obtain ⟨us, hrest⟩ := Cursor.cons_of_peek hc (by rw [hkind]; exact nofun)
  unfold typeArguments
  rw [hrest, typeArguments.go]
  simp only [hkind]
  refine .after (Cursor.goes_take hrest) (tries_go c 0 c.peek us) fun vs hvs => ?_
  rw [arguments, mul_assoc]
  rw [closing, closing, mul_one] at hvs
  exact cons_mem_mul hkind hvs

/-- What is nested leaves the number of open brackets as it is. -/
theorem go_of_nested (h : IsNested ts) (c : Cursor) (n : Nat) (last : Token) (rest : List Token) :
    typeArguments.go c last (n + 1) (ts ++ rest) =
      typeArguments.go c (ts.getLast?.getD last) (n + 1) rest := by
  induction h generalizing n last rest with
  | nil => rfl
  | @token t ts ht _ ih =>
    have hnot : ∀ k ∈ argumentMarks, t.kind = k → False := fun k hk hkind => ht (hkind ▸ hk)
    rw [List.cons_append, typeArguments.go]
    split
    case h_6 => rw [ih, List.getLast?_cons, Option.getD_some]
    all_goals
      rename_i hkind
      exact absurd hkind (hnot _ (by decide))
  | @group l r inside ts hl _ hr _ ihinside ihts =>
    rw [List.cons_append, List.append_assoc, List.cons_append, typeArguments.go]
    simp only [hl]
    rw [ihinside, typeArguments.go]
    simp only [hr]
    rw [if_neg (by omega), Nat.add_sub_cancel, ihts]
    rw [List.getLast?_cons, List.getLast?_append, List.getLast?_cons, Option.some_or,
      Option.getD_some, Option.getD_some]

theorem typeArguments_of_mem (h : ts ∈ arguments) (hrest : c.rest = ts ++ rest) :
    ∃ d, typeArguments 0 c = (some (), d) ∧ c.Goes ts [] d := by
  obtain ⟨_, ⟨_, ⟨l, rfl, hl⟩, inside, hinside, rfl⟩, _, ⟨r, rfl, hr⟩, rfl⟩ := h
  refine ⟨{ c with last := r, rest := rest }, ?_, rfl, rfl, ?_, hrest, (List.append_nil _).symm⟩
  · have hsplit : c.rest = l :: (inside ++ r :: rest) := by simpa using hrest
    unfold typeArguments
    rw [hsplit, typeArguments.go]
    simp only [hl]
    rw [go_of_nested hinside, typeArguments.go]
    simp [hr]
  · rw [List.getLast?_concat, Option.getD_some]

/-! ## Constant values -/

/-- What a constant value begins with. -/
def valueHeads : List TokenKind :=
  [.int, .float, .string, .identifier, .mark .plus, .mark .minus, .mark .lbracket, .mark .lbrace]

theorem exists_head_of_value (h : IsValue ts) : ∃ t us, ts = t :: us ∧ t.kind ∈ valueHeads := by
  cases h with
  | word h => exact ⟨_, _, rfl, List.mem_append_left _ h⟩
  | signed hs _ => exact ⟨_, _, rfl, List.mem_append_right [.int, .float, .string, .identifier]
      (List.mem_append_left _ hs)⟩
  | list hl => exact ⟨_, _, rfl, by simp [valueHeads, hl]⟩
  | map hl => exact ⟨_, _, rfl, by simp [valueHeads, hl]⟩

theorem ne_nil_of_value (h : ts ∈ Phrase.value) : ts ≠ [] := by
  obtain ⟨t, us, rfl, -⟩ := exists_head_of_value h
  exact List.cons_ne_nil t us

theorem shuns_of_value (h : ts ∈ Phrase.value) {ks : List TokenKind}
    (hks : ∀ k ∈ valueHeads, k ∉ ks) (rest : List Token) : Shuns ks (ts ++ rest) := by
  obtain ⟨t, us, rfl, ht⟩ := exists_head_of_value h
  exact shuns_cons (hks t.kind ht)

section Steps

/-! Values, lists and maps refer to each other, so they are taken together, by the number of tokens
that are left. -/

variable (hc : c.eof.kind = .eof)
include hc

theorem tries_value_step
    (hlist : ∀ d : Cursor, d.rest.length < c.rest.length → d.eof.kind = .eof →
      d.Tries (item∗ * mark .rbracket) (listItems d))
    (hmap : ∀ d : Cursor, d.rest.length < c.rest.length → d.eof.kind = .eof →
      d.Tries (entry∗ * mark .rbrace) (mapEntries d)) : c.Tries Phrase.value (value c) := by
  unfold value
  split
  · exact .fault _ _ (.refl c)
  rename_i t ts hrest
  have htake := Cursor.goes_take hrest
  have hlt : ts.length < c.rest.length := by
    rw [hrest]
    exact Nat.lt_succ_self _
  have hword (h : t.kind ∈ [.int, .float, .string, .identifier]) :
      c.Tries Phrase.value (some (), { c with last := t, rest := ts }) :=
    .inl ⟨rfl, [t], .word h, htake⟩
  have hsign (h : t.kind ∈ [.mark .plus, .mark .minus]) :
      c.Tries Phrase.value
        (if ({ c with last := t, rest := ts } : Cursor).sees .int ||
            ({ c with last := t, rest := ts } : Cursor).sees .float then
          (some (), ({ c with last := t, rest := ts } : Cursor).advance)
        else (none, ({ c with last := t, rest := ts } : Cursor).report (noValue t) t)) := by
    split
    · rename_i hsees
      have hkind : ({ c with last := t, rest := ts } : Cursor).peek.kind ∈ [.int, .float] := by
        rw [List.mem_pair]
        exact (Bool.or_eq_true _ _ ▸ hsees).imp eq_of_beq eq_of_beq
      have hgoes := Cursor.goes_advance_of_peek (c := { c with last := t, rest := ts }) hc
        (by rintro heof; rw [heof] at hkind; exact absurd hkind (by decide))
      exact .inl ⟨rfl, _, .signed h hkind, htake.trans hgoes⟩
    · exact .fault _ _ htake
  simp only
  split
  · rename_i hkind; exact hword (by simp [hkind])
  · rename_i hkind; exact hword (by simp [hkind])
  · rename_i hkind; exact hword (by simp [hkind])
  · rename_i hkind; exact hword (by simp [hkind])
  · rename_i hkind; exact hsign (by simp [hkind])
  · rename_i hkind; exact hsign (by simp [hkind])
  · rename_i hkind
    refine .after htake (hlist _ hlt hc) fun us hus => ?_
    rw [value_eq]
    exact .inl (.inr (cons_mem_mul hkind hus))
  · rename_i hkind
    refine .after htake (hmap _ hlt hc) fun us hus => ?_
    rw [value_eq]
    exact .inr (cons_mem_mul hkind hus)
  · exact .fault _ _ (.refl c)

theorem tries_listItems_step (hvalue : c.Tries Phrase.value (value c))
    (hlist : ∀ d : Cursor, d.rest.length < c.rest.length → d.eof.kind = .eof →
      d.Tries (item∗ * mark .rbracket) (listItems d)) :
    c.Tries (item∗ * mark .rbracket) (listItems c) := by
  unfold listItems
  split
  · rename_i hsees
    have hkind : c.peek.kind = .mark .rbracket := eq_of_beq hsees
    rw [kstar_mul]
    exact .inl ⟨rfl, [c.peek], .inl (singleton_mem hkind),
      Cursor.goes_advance_of_peek hc (by rw [hkind]; exact nofun)⟩
  split
  · rename_i d hd
    rw [hd] at hvalue
    exact hvalue.of_none
  · rename_i d hd
    rw [hd] at hvalue
    obtain ⟨ts, hts, hgoes⟩ := hvalue.of_some
    obtain ⟨-, us, hus, hmore⟩ := separator_goes (hgoes.eof ▸ hc)
    have hboth : c.Goes (ts ++ us) [] (skipSeparator d) := hgoes.trans hmore
    have hlt := hboth.ne_nil_iff.mp (List.append_ne_nil_of_left_ne_nil (ne_nil_of_value hts) us)
    rw [if_pos hlt, kstar_mul]
    exact .after hboth (hlist _ hlt (hboth.eof ▸ hc)) fun vs hvs =>
      .inr (Phrase.mul_mem (Phrase.mul_mem hts hus) hvs)

theorem tries_mapEntries_step
    (hvalue : ∀ d : Cursor, d.rest.length ≤ c.rest.length → d.eof.kind = .eof →
      d.Tries Phrase.value (value d))
    (hmap : ∀ d : Cursor, d.rest.length < c.rest.length → d.eof.kind = .eof →
      d.Tries (entry∗ * mark .rbrace) (mapEntries d)) :
    c.Tries (entry∗ * mark .rbrace) (mapEntries c) := by
  have hkey := hvalue c (Nat.le_refl _) hc
  unfold mapEntries
  split
  · rename_i hsees
    have hkind : c.peek.kind = .mark .rbrace := eq_of_beq hsees
    rw [kstar_mul]
    exact .inl ⟨rfl, [c.peek], .inl (singleton_mem hkind),
      Cursor.goes_advance_of_peek hc (by simp [hkind])⟩
  split
  · rename_i d hd
    rw [hd] at hkey
    exact hkey.of_none
  rename_i d hd
  rw [hd] at hkey
  obtain ⟨ks, hks, hkeyGoes⟩ := hkey.of_some
  have hcolon := Parse.tries_expect (hkeyGoes.eof ▸ hc) (k := .mark .colon) (by decide) (utf8 "':'")
  split
  · rename_i e he
    rw [he] at hcolon
    exact .after hkeyGoes hcolon.of_none fun us hus => hus
  rename_i e he
  rw [he] at hcolon
  obtain ⟨cs, hcs, hcolonGoes⟩ := hcolon.of_some
  have hlead := hkeyGoes.trans hcolonGoes
  have hlt := hlead.ne_nil_iff.mp (List.append_ne_nil_of_left_ne_nil (ne_nil_of_value hks) cs)
  rw [if_pos hlt]
  have hentry := hvalue e (Nat.le_of_lt hlt) (hlead.eof ▸ hc)
  split
  · rename_i f hf
    rw [hf] at hentry
    exact .after hlead hentry.of_none fun us hus => hus
  · rename_i f hf
    rw [hf] at hentry
    obtain ⟨vs, hvs, hvalueGoes⟩ := hentry.of_some
    obtain ⟨-, us, hus, hmore⟩ := separator_goes ((hlead.trans hvalueGoes).eof ▸ hc)
    have hall : c.Goes ((ks ++ cs) ++ vs ++ us) [] (skipSeparator f) :=
      (hlead.trans hvalueGoes).trans hmore
    have hlt := hall.ne_nil_iff.mp (by simp [ne_nil_of_value hks])
    rw [if_pos hlt, kstar_mul]
    exact .after hall (hmap _ hlt (hall.eof ▸ hc)) fun ws hws =>
      .inr (Phrase.mul_mem (Phrase.mul_mem (Phrase.mul_mem (Phrase.mul_mem hks hcs) hvs) hus) hws)

end Steps

theorem tries_values (hc : c.eof.kind = .eof) : c.Tries Phrase.value (value c) ∧
    c.Tries (item∗ * mark .rbracket) (listItems c) ∧
      c.Tries (entry∗ * mark .rbrace) (mapEntries c) := by
  induction hn : c.rest.length using Nat.strongRecOn generalizing c with
  | ind n ih =>
    subst hn
    have hlist : ∀ d : Cursor, d.rest.length < c.rest.length → d.eof.kind = .eof →
        d.Tries (item∗ * mark .rbracket) (listItems d) := fun d hd heof =>
      (ih _ hd heof rfl).2.1
    have hmap : ∀ d : Cursor, d.rest.length < c.rest.length → d.eof.kind = .eof →
        d.Tries (entry∗ * mark .rbrace) (mapEntries d) := fun d hd heof => (ih _ hd heof rfl).2.2
    have hvalue : ∀ d : Cursor, d.rest.length ≤ c.rest.length → d.eof.kind = .eof →
        d.Tries Phrase.value (value d) := fun d hd heof =>
      tries_value_step heof (fun e he => hlist e (Nat.lt_of_lt_of_le he hd))
        (fun e he => hmap e (Nat.lt_of_lt_of_le he hd))
    exact ⟨hvalue c (Nat.le_refl _) hc, tries_listItems_step hc (hvalue c (Nat.le_refl _) hc) hlist,
      tries_mapEntries_step hc hvalue hmap⟩

/-- A constant value that stands at a cursor is taken, or a fault is reported. -/
theorem tries_value (hc : c.eof.kind = .eof) : c.Tries Phrase.value (value c) :=
  (tries_values hc).1

/-! ### Values that stand at a cursor -/

section Stand

variable {t : Token}

theorem value_word (h : c.rest = t :: ts)
    (ht : t.kind ∈ [.int, .float, .string, .identifier]) :
    value c = (some (), { c with last := t, rest := ts }) := by
  rw [value.eq_def]
  grind

theorem value_sign {u : Token} (h : c.rest = t :: u :: ts)
    (ht : t.kind ∈ [.mark .plus, .mark .minus]) (hu : u.kind ∈ [.int, .float]) :
    value c = (some (), { c with last := u, rest := ts }) := by
  have hsees : (({ c with last := t, rest := u :: ts } : Cursor).sees .int ||
      ({ c with last := t, rest := u :: ts } : Cursor).sees .float) = true := by
    rw [Cursor.sees_of_cons rfl, Cursor.sees_of_cons rfl]
    rw [List.mem_pair] at hu
    rcases hu with hu | hu <;> rw [hu] <;> rfl
  have hadvance : ({ c with last := t, rest := u :: ts } : Cursor).advance =
      { c with last := u, rest := ts } := rfl
  rw [value.eq_def]
  grind

theorem value_list (h : c.rest = t :: ts) (ht : t.kind = .mark .lbracket) :
    value c = listItems { c with last := t, rest := ts } := by
  rw [value.eq_def]
  grind

theorem value_map (h : c.rest = t :: ts) (ht : t.kind = .mark .lbrace) :
    value c = mapEntries { c with last := t, rest := ts } := by
  rw [value.eq_def]
  grind

end Stand

/-- Wherever the tokens stand, a step takes them. -/
def Takes {α : Type} (m : Cursor → Option α × Cursor) (ts : List Token) : Prop :=
  ∀ (c : Cursor) (rest : List Token), c.eof.kind = .eof → c.rest = ts ++ rest →
    ∃ a d, m c = (some a, d) ∧ c.Goes ts [] d

/-- Behind an item stands another one or the closing bracket. -/
theorem shuns_items {items : List Item} {r : Token} (hvalues : ∀ i ∈ items, IsValue i.value)
    (hr : r.kind = .mark .rbracket) (rest : List Token) :
    Shuns [.mark .comma, .mark .semi] ((items.flatMap Item.tokens ++ [r]) ++ rest) := by
  cases items with
  | nil => exact shuns_cons (by rw [hr]; decide)
  | cons i items =>
    rw [List.flatMap_cons, Item.tokens, List.append_assoc, List.append_assoc, List.append_assoc]
    exact shuns_of_value (hvalues i List.mem_cons_self) (by decide) _

theorem shuns_entries {entries : List Entry} {r : Token} (hkeys : ∀ e ∈ entries, IsValue e.key)
    (hr : r.kind = .mark .rbrace) (rest : List Token) :
    Shuns [.mark .comma, .mark .semi] ((entries.flatMap Entry.tokens ++ [r]) ++ rest) := by
  cases entries with
  | nil => exact shuns_cons (by rw [hr]; decide)
  | cons e entries =>
    rw [List.flatMap_cons, Entry.tokens, List.append_assoc, List.append_assoc, List.append_assoc]
    exact shuns_of_value (hkeys e List.mem_cons_self) (by decide) _

theorem takes_listItems {items : List Item} {r : Token} (hvalues : ∀ i ∈ items, IsValue i.value)
    (htakes : ∀ i ∈ items, Takes value i.value)
    (hseparators : ∀ i ∈ items, i.separator ∈ optional Phrase.separator)
    (hr : r.kind = .mark .rbracket) : Takes listItems (items.flatMap Item.tokens ++ [r]) := by
  induction items with
  | nil =>
    intro c rest _ hrest
    have hsees : c.sees (.mark .rbracket) = true := by
      rw [Cursor.sees_of_cons hrest, hr]
      rfl
    rw [listItems, if_pos hsees]
    exact ⟨(), _, rfl, Cursor.goes_advance hrest⟩
  | cons i items ih =>
    intro c rest hc hrest
    rw [List.forall_mem_cons] at hvalues htakes hseparators
    rw [List.flatMap_cons, Item.tokens, List.append_assoc] at hrest ⊢
    have hsplit : c.rest =
        i.value ++ (i.separator ++ ((items.flatMap Item.tokens ++ [r]) ++ rest)) := by
      simpa using hrest
    have hvalue : Shuns [.mark .rbracket] c.rest :=
      hsplit ▸ shuns_of_value hvalues.1 (by decide) _
    have hopen := Cursor.not_sees hc hvalue List.mem_cons_self nofun
    obtain ⟨a, d, hvalue, hgoes⟩ := htakes.1 c _ hc hsplit
    have hd := hgoes.rest_eq hsplit
    obtain ⟨s, e, hseparator, hmore⟩ := separator_of_mem (hgoes.eof ▸ hc) hseparators.1 hd
      (shuns_items hvalues.2 hr rest)
    have hboth := hgoes.trans hmore
    have hlt := hboth.ne_nil_iff.mp
      (List.append_ne_nil_of_left_ne_nil (ne_nil_of_value hvalues.1) _)
    obtain ⟨b, f, hrun, hrunGoes⟩ :=
      ih hvalues.2 htakes.2 hseparators.2 e rest (hboth.eof ▸ hc) (hmore.rest_eq hd)
    have hskip : skipSeparator d = e := by rw [skipSeparator, hseparator]
    rw [listItems, if_neg hopen, hvalue]
    simp only [hskip]
    rw [if_pos hlt, hrun]
    exact ⟨b, f, rfl, by simpa using hboth.trans hrunGoes⟩

theorem takes_mapEntries {entries : List Entry} {r : Token}
    (hkeys : ∀ e ∈ entries, IsValue e.key) (htakesKeys : ∀ e ∈ entries, Takes value e.key)
    (hcolons : ∀ e ∈ entries, e.colon ∈ mark .colon)
    (htakesValues : ∀ e ∈ entries, Takes value e.value)
    (hseparators : ∀ e ∈ entries, e.separator ∈ optional Phrase.separator)
    (hr : r.kind = .mark .rbrace) : Takes mapEntries (entries.flatMap Entry.tokens ++ [r]) := by
  induction entries with
  | nil =>
    intro c rest _ hrest
    have hsees : c.sees (.mark .rbrace) = true := by
      rw [Cursor.sees_of_cons hrest, hr]
      rfl
    rw [mapEntries, if_pos hsees]
    exact ⟨(), _, rfl, Cursor.goes_advance hrest⟩
  | cons i entries ih =>
    intro c rest hc hrest
    rw [List.forall_mem_cons] at hkeys htakesKeys hcolons htakesValues hseparators
    obtain ⟨colon, hcolon, hcolonKind⟩ := hcolons.1
    rw [List.flatMap_cons, Entry.tokens, hcolon] at hrest ⊢
    have hsplit : c.rest = i.key ++ (colon :: (i.value ++
        (i.separator ++ ((entries.flatMap Entry.tokens ++ [r]) ++ rest)))) := by
      simpa using hrest
    have hvalue : Shuns [.mark .rbrace] c.rest :=
      hsplit ▸ shuns_of_value hkeys.1 (by decide) _
    have hopen := Cursor.not_sees hc hvalue List.mem_cons_self nofun
    obtain ⟨a, d, hkey, hkeyGoes⟩ := htakesKeys.1 c _ hc hsplit
    have hd := hkeyGoes.rest_eq hsplit
    have hexpect := Parse.expect_of_cons hcolonKind hd (utf8 "':'")
    have hlead := hkeyGoes.trans (Cursor.goes_advance hd)
    have he := (Cursor.goes_advance hd).rest_eq hd
    obtain ⟨b, f, hvalue, hvalueGoes⟩ := htakesValues.1 d.advance _ (hlead.eof ▸ hc) he
    have hf := hvalueGoes.rest_eq he
    obtain ⟨s, g, hseparator, hmore⟩ := separator_of_mem ((hlead.trans hvalueGoes).eof ▸ hc)
      hseparators.1 hf (shuns_entries hkeys.2 hr rest)
    have hall := (hlead.trans hvalueGoes).trans hmore
    have hg := hmore.rest_eq hf
    have hltLead := hlead.ne_nil_iff.mp
      (List.append_ne_nil_of_left_ne_nil (ne_nil_of_value hkeys.1) _)
    have hlt := hall.ne_nil_iff.mp (by simp)
    obtain ⟨a', h, hrun, hrunGoes⟩ :=
      ih hkeys.2 htakesKeys.2 hcolons.2 htakesValues.2 hseparators.2 g rest (hall.eof ▸ hc) hg
    have hskip : skipSeparator f = g := by rw [skipSeparator, hseparator]
    rw [mapEntries, if_neg hopen, hkey]
    simp only [hexpect]
    rw [if_pos hltLead, hvalue]
    simp only [hskip]
    rw [if_pos hlt, hrun]
    exact ⟨a', h, rfl, by simpa using hall.trans hrunGoes⟩

theorem takes_value (h : ts ∈ Phrase.value) : Takes value ts := by
  induction h with
  | word ht => exact fun c rest hc hrest => ⟨(), _, value_word hrest ht, Cursor.goes_take hrest⟩
  | @signed s t hs ht =>
    intro c rest hc hrest
    refine ⟨(), _, value_sign hrest hs ht, ?_⟩
    exact (Cursor.goes_take hrest).trans (Cursor.goes_take rfl)
  | @list l r items hl hvalues hseparators hr ih =>
    intro c rest hc hrest
    obtain ⟨a, d, hrun, hgoes⟩ := takes_listItems hvalues ih hseparators hr
      { c with last := l, rest := (items.flatMap Item.tokens ++ [r]) ++ rest } rest hc rfl
    exact ⟨a, d, (value_list hrest hl).trans hrun, (Cursor.goes_take hrest).trans hgoes⟩
  | @map l r entries hl hkeys hcolons hvalues hseparators hr ihkeys ihvalues =>
    intro c rest hc hrest
    obtain ⟨a, d, hrun, hgoes⟩ := takes_mapEntries hkeys ihkeys hcolons ihvalues hseparators hr
      { c with last := l, rest := (entries.flatMap Entry.tokens ++ [r]) ++ rest } rest hc rfl
    exact ⟨a, d, (value_map hrest hl).trans hrun, (Cursor.goes_take hrest).trans hgoes⟩

end Grammar

end ThriftLayout
