import ThriftLayout.Document.Grammar
import ThriftLayout.Proofs.Token.Runs

/-!
# How a cursor goes over tokens

A cursor only ever goes forward. Between two places of it stand the tokens it took, and at the
second it knows the faults found on the way (`Cursor.Goes`). What the grammar cuts out of the source
and where it says that stands follow from the tokens that were taken.

Results:

* `Cursor.Goes.rawFrom`, `Cursor.Goes.regionFrom`: the text and the region of the tokens taken.
* `Cursor.goes_skipWhile`, `Cursor.Goes.skipMember`: what recovery takes.
-/
namespace ThriftLayout

/-- The region from the first of some tokens to the end of the last. -/
def Region.ofTokens (src : Bytes) (ts : List Token) : Region :=
  match ts.head?, ts.getLast? with
  | some t, some u => ⟨(Lines.mk src).pointAt t.start, (Lines.mk src).pointAt u.stop⟩
  | _, _ => default

namespace Cursor

/-- From one place of a cursor to another, over tokens and with faults. -/
structure Goes (c : Cursor) (ts : List Token) (fs : List (ParseFault × Token)) (d : Cursor) :
    Prop where
  src : d.src = c.src
  eof : d.eof = c.eof
  last : d.last = ts.getLast?.getD c.last
  rest : c.rest = ts ++ d.rest
  faults : d.faults = c.faults ++ fs

/-- A cursor over the tokens of a source. -/
structure On (src : Bytes) (c : Cursor) : Prop where
  source : c.src = src
  eof : c.eof.kind = .eof
  rest : c.rest <:+ (lex src).good

variable {src : Bytes} {c d e : Cursor} {t : Token} {ts us : List Token}
  {fs gs : List (ParseFault × Token)}

namespace Goes

theorem refl (c : Cursor) : c.Goes [] [] c := ⟨rfl, rfl, rfl, rfl, (List.append_nil _).symm⟩

theorem trans (h : c.Goes ts fs d) (h' : d.Goes us gs e) : c.Goes (ts ++ us) (fs ++ gs) e where
  src := h'.src.trans h.src
  eof := h'.eof.trans h.eof
  last := by
    rw [h'.last, h.last, List.getLast?_append]
    cases us.getLast? <;> rfl
  rest := by rw [h.rest, h'.rest, List.append_assoc]
  faults := by rw [h'.faults, h.faults, List.append_assoc]

theorem on (h : c.Goes ts fs d) (hc : c.On src) : d.On src where
  source := h.src.trans hc.source
  eof := by rw [h.eof, hc.eof]
  rest := .trans ⟨ts, h.rest.symm⟩ hc.rest

theorem length (h : c.Goes ts fs d) : c.rest.length = ts.length + d.rest.length := by
  rw [h.rest, List.length_append]

theorem rest_eq (h : c.Goes ts fs d) {rest : List Token} (hrest : c.rest = ts ++ rest) :
    d.rest = rest := List.append_cancel_left (h.rest.symm.trans hrest)

/-- A cursor that has gone on took a token. -/
theorem ne_nil_iff (h : c.Goes ts fs d) : ts ≠ [] ↔ d.rest.length < c.rest.length := by
  rw [h.length, ← List.length_pos_iff]
  omega

theorem report (h : c.Goes ts fs d) (f : ParseFault) (t : Token) :
    c.Goes ts (fs ++ [(f, t)]) (d.report f t) :=
  ⟨h.src, h.eof, h.last, h.rest, by rw [Cursor.report, h.faults, List.append_assoc]⟩

end Goes

/-! ## Taking tokens -/

theorem peek_of_cons (h : c.rest = t :: ts) : c.peek = t := by rw [peek, h]; rfl

theorem goes_advance (h : c.rest = t :: ts) : c.Goes [t] [] c.advance := by
  unfold advance
  rw [h]
  exact ⟨rfl, rfl, rfl, h, (List.append_nil _).symm⟩

theorem advance_of_nil (h : c.rest = []) : c.advance = c := by
  unfold advance
  rw [h]

/-- The next token is the one at the end, or the first of the rest. -/
theorem cons_of_peek (hc : c.eof.kind = .eof) (h : c.peek.kind ≠ .eof) :
    ∃ ts, c.rest = c.peek :: ts := by
  unfold peek at h ⊢
  cases hrest : c.rest with
  | nil => exact absurd hc (by rwa [hrest] at h)
  | cons t ts => exact ⟨ts, rfl⟩

theorem goes_advance_of_peek (hc : c.eof.kind = .eof) (h : c.peek.kind ≠ .eof) :
    c.Goes [c.peek] [] c.advance := by
  obtain ⟨ts, hrest⟩ := cons_of_peek hc h
  exact goes_advance hrest

theorem exists_goes_advance (c : Cursor) : ∃ ts, c.Goes ts [] c.advance := by
  cases hrest : c.rest with
  | nil => exact ⟨[], by rw [advance_of_nil hrest]; exact .refl c⟩
  | cons t ts => exact ⟨[t], goes_advance hrest⟩

/-- The cursor at a token that was taken from it. -/
theorem goes_take (h : c.rest = t :: ts) : c.Goes [t] [] { c with last := t, rest := ts } :=
  ⟨rfl, rfl, rfl, h, (List.append_nil _).symm⟩

theorem goes_skipWhile (p : Token → Bool) (c : Cursor) : ∃ ts, c.Goes ts [] (c.skipWhile p) := by
  have hgo : ∀ (rest : List Token) (last : Token) (before : List Token), c.rest = before ++ rest →
      last = before.getLast?.getD c.last → ∃ ts, c.Goes ts [] (skipWhile.go p c last rest) := by
    intro rest
    induction rest with
    | nil =>
      intro last before hrest hlast
      exact ⟨before, rfl, rfl, hlast, hrest, (List.append_nil _).symm⟩
    | cons t rest ih =>
      intro last before hrest hlast
      unfold skipWhile.go
      split
      · refine ih t (before ++ [t]) (by rw [hrest, List.append_assoc]; rfl) ?_
        rw [List.getLast?_concat, Option.getD_some]
      · exact ⟨before, rfl, rfl, hlast, hrest, (List.append_nil _).symm⟩
  exact hgo c.rest c.last [] rfl rfl

theorem Goes.skipWhile (h : c.Goes ts fs d) (p : Token → Bool) :
    ∃ us, c.Goes us fs (d.skipWhile p) := by
  obtain ⟨us, hus⟩ := goes_skipWhile p d
  have hboth := h.trans hus
  rw [List.append_nil] at hboth
  exact ⟨ts ++ us, hboth⟩

theorem Goes.skipMember (h : c.Goes ts fs d) (start : Cursor) :
    ∃ us, c.Goes us fs (Cursor.skipMember start d) := by
  unfold Cursor.skipMember
  simp only
  split
  · obtain ⟨us, hus⟩ := exists_goes_advance d
    have hboth := h.trans hus
    rw [List.append_nil] at hboth
    exact hboth.skipWhile _
  · exact h.skipWhile _

/-! ## What is cut out -/

section Cut

variable (h : c.Goes ts fs d) (hts : ts ≠ [])
include h hts

theorem Goes.peek_eq : ts.head? = some c.peek := by
  obtain ⟨t, us, rfl⟩ := List.exists_cons_of_ne_nil hts
  rw [peek_of_cons h.rest]
  rfl

theorem Goes.last_eq : ts.getLast? = some d.last := by
  rw [h.last, List.getLast?_eq_some_getLast hts, Option.getD_some]

/-- What is cut out of the source are the tokens taken. -/
theorem Goes.rawFrom : d.rawFrom c.peek = Token.textOf c.src ts := by
  rw [Cursor.rawFrom, Token.textOf, h.peek_eq hts, h.last_eq hts, h.src]

theorem Goes.regionFrom : d.regionFrom c.peek = .ofTokens c.src ts := by
  rw [Cursor.regionFrom, Region.ofTokens, h.peek_eq hts, h.last_eq hts, h.src]

end Cut

end Cursor

/-! ## Steps in a row -/

namespace Parse

variable {α β : Type} {m : Parse α} {f : α → Parse β} {c d : Cursor}

theorem bind_of_some {a : α} (h : m c = (some a, d)) : (m >>= f) c = f a d := by
  have hstep : ∀ r : Option α × Cursor, r = (some a, d) →
      ((fun _ => r : Parse α) >>= f) c = f a d := by
    rintro _ rfl
    rfl
  exact hstep (m c) h

theorem bind_of_none (h : m c = (none, d)) : (m >>= f) c = (none, d) := by
  have hstep : ∀ r : Option α × Cursor, r = (none, d) →
      ((fun _ => r : Parse α) >>= f) c = (none, d) := by
    rintro _ rfl
    rfl
  exact hstep (m c) h

theorem accept_of_sees {k : TokenKind} (h : c.sees k = true) :
    accept k c = (some true, c.advance) := by rw [accept, if_pos h]

theorem accept_of_not_sees {k : TokenKind} (h : c.sees k ≠ true) :
    accept k c = (some false, c) := by rw [accept, if_neg h]

end Parse

end ThriftLayout
