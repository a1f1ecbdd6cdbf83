import ThriftLayout.Document
import ThriftLayout.Proofs.Document.Values
import ThriftLayout.Proofs.Layout.Cutting

/-!
# The tokens that declarations are read from

A field is read from successive tokens: each of its parts is the text of some of them, and one part
follows the other without a gap (`Spells`). A list of fields is read from tokens further apart,
since marks stand between them and what cannot be read is left out (`Strewn`). For every step of the
grammar it is told where its result comes from, also in a source with faults.

Results:

* `Grammar.gives_field`, `Grammar.gives_member`: the tokens of a field and of an enum member.
* `parse_strewn`: the declarations of a document with all they hold.
-/
namespace ThriftLayout

/-- How parts are spelled by tokens, one part after the other. An absent part takes no token. -/
inductive Spells (src : Bytes) : List Token → List Bytes → Prop where
  | nil : Spells src [] []
  | cons (us : List Token) {ts : List Token} {ps : List Bytes} (h : Spells src ts ps) :
      Spells src (us ++ ts) (Token.textOf src us :: ps)

/-- How parts are spelled by tokens, each of them as a phrase of a language of its own. -/
inductive SpellsIn (src : Bytes) : List Token → List (Language Token × Bytes) → Prop where
  | nil : SpellsIn src [] []
  | cons {us ts : List Token} {l : Language Token} {ps : List (Language Token × Bytes)}
      (hus : us ∈ l) (h : SpellsIn src ts ps) :
      SpellsIn src (us ++ ts) ((l, Token.textOf src us) :: ps)

/-- Where results come from: each from a stretch of the tokens, in order and with gaps. -/
inductive Strewn {α : Type} (R : List Token → α → Prop) : List Token → List α → Prop where
  | nil (gap : List Token) : Strewn R gap []
  | cons (gap : List Token) {us ts : List Token} {a : α} {as : List α} (ha : R us a)
      (h : Strewn R ts as) : Strewn R (gap ++ (us ++ ts)) (a :: as)

/-- The parts of a field, with the colon after its number and the equals sign before its default. -/
def Field.parts (f : Field) : List Bytes :=
  [f.id, if f.id = [] then [] else [Ascii.colon], f.qualifier, f.type, f.name,
    if f.default = [] then [] else [Ascii.equals], f.default, f.annot, f.separator]

/-- The parts of an enum member, with the equals sign before its number. -/
def Member.parts (m : Member) : List Bytes :=
  [m.name, if m.value = [] then [] else [Ascii.equals], m.value, m.annot, m.separator]

open Phrase (one mark keyword optional) in
/-- The parts of a field and the phrases they are. -/
def Field.phrases (f : Field) : List (Language Token × Bytes) :=
  [(optional Phrase.number, f.id),
    (optional (mark .colon), if f.id = [] then [] else [Ascii.colon]),
    (optional (keyword .required + keyword .optional), f.qualifier),
    (Phrase.type, f.type), (one .identifier, f.name),
    (optional (mark .equal), if f.default = [] then [] else [Ascii.equals]),
    (optional Phrase.value, f.default), (optional Phrase.annotations, f.annot),
    (optional Phrase.separator, f.separator)]

open Phrase (one mark optional) in
/-- The parts of an enum or senum member and the phrases they are. -/
def Member.phrases (m : Member) : List (Language Token × Bytes) :=
  [(one .identifier + one .string, m.name),
    (optional (mark .equal), if m.value = [] then [] else [Ascii.equals]),
    (optional Phrase.number, m.value), (optional Phrase.annotations, m.annot),
    (optional Phrase.separator, m.separator)]

/-- A field that is read from tokens. -/
structure Field.From (src : Bytes) (ts : List Token) (f : Field) : Prop where
  nonempty : ts ≠ []
  region : f.region = .ofTokens src ts
  phrases : SpellsIn src ts f.phrases
  separator : IsTerminator f.separator

/-- An enum member that is read from tokens. -/
structure Member.From (src : Bytes) (ts : List Token) (m : Member) : Prop where
  nonempty : ts ≠ []
  region : m.region = .ofTokens src ts
  phrases : SpellsIn src ts m.phrases
  separator : IsTerminator m.separator

/-- A function that is read from tokens. -/
structure Function.From (src : Bytes) (ts : List Token) (f : Function) : Prop where
  nonempty : ts ≠ []
  region : f.region = .ofTokens src ts
  params : Strewn (Field.From src) ts (f.params ++ f.throws)

/-- What stands between the braces of a declaration is read from tokens. -/
def DeclBody.From (src : Bytes) (ts : List Token) : DeclBody → Prop
  | .none => True
  | .fields fs => Strewn (Field.From src) ts fs
  | .members ms => Strewn (Member.From src) ts ms
  | .functions fns => Strewn (Function.From src) ts fns

/-- A declaration that is read from tokens. -/
structure Decl.From (src : Bytes) (ts : List Token) (d : Decl) : Prop where
  nonempty : ts ≠ []
  region : d.region = .ofTokens src ts
  body : d.body.From src ts

variable {src : Bytes} {ts us : List Token}

namespace SpellsIn

theorem append {ps qs : List (Language Token × Bytes)} (h : SpellsIn src ts ps)
    (h' : SpellsIn src us qs) : SpellsIn src (ts ++ us) (ps ++ qs) := by
  induction h with
  | nil => exact h'
  | cons hus _ ih =>
    rw [List.append_assoc, List.cons_append]
    exact .cons hus ih

theorem single {l : Language Token} (hus : us ∈ l) :
    SpellsIn src us [(l, Token.textOf src us)] := by
  simpa using @SpellsIn.cons src _ _ _ _ hus .nil

theorem spells {ps : List (Language Token × Bytes)} (h : SpellsIn src ts ps) :
    Spells src ts (ps.map Prod.snd) := by
  induction h with
  | nil => exact .nil
  | cons _ _ ih => exact .cons _ ih

end SpellsIn

theorem Field.From.parts {f : Field} (h : f.From src ts) : Spells src ts f.parts :=
  h.phrases.spells

theorem Member.From.parts {m : Member} (h : m.From src ts) : Spells src ts m.parts :=
  h.phrases.spells

namespace Strewn

variable {α : Type} {R : List Token → α → Prop} {as bs : List α}

theorem gap_append (gap : List Token) (h : Strewn R ts as) : Strewn R (gap ++ ts) as := by
  cases h with
  | nil => exact .nil _
  | cons gap' ha h =>
    rw [← List.append_assoc]
    exact .cons (gap ++ gap') ha h

theorem append (h : Strewn R ts as) (h' : Strewn R us bs) : Strewn R (ts ++ us) (as ++ bs) := by
  induction h with
  | nil gap => exact h'.gap_append gap
  | cons gap ha _ ih =>
    rw [List.append_assoc, List.append_assoc]
    exact .cons gap ha ih

theorem append_gap (h : Strewn R ts as) (gap : List Token) : Strewn R (ts ++ gap) as := by
  simpa using h.append (.nil gap)

/-- A result from the tokens in front of the others. -/
theorem cons_front {a : α} (ha : R us a) (h : Strewn R ts as) : Strewn R (us ++ ts) (a :: as) :=
  .cons [] ha h

theorem exists_stretch (h : Strewn R ts as) {a : α} (ha : a ∈ as) : ∃ us, R us a ∧ us <:+: ts := by
  induction h with
  | nil => exact absurd ha List.not_mem_nil
  | @cons gap us rest b bs hb _ ih =>
    rcases List.mem_cons.mp ha with rfl | ha
    · exact ⟨us, hb, gap, rest, List.append_assoc _ _ _⟩
    · obtain ⟨vs, hvs, hpart⟩ := ih ha
      exact ⟨vs, hvs, hpart.trans ⟨gap ++ us, [], by simp⟩⟩

/-- One result comes from tokens in front of those that a later one comes from. -/
theorem pairwise (h : Strewn R ts as) :
    as.Pairwise fun a b => ∃ us vs, R us a ∧ R vs b ∧ (us ++ vs).Sublist ts := by
  induction h with
  | nil => exact List.Pairwise.nil
  | @cons gap us rest a as ha h ih =>
    refine List.pairwise_cons.mpr ⟨fun b hb => ?_, ih.imp ?_⟩
    · obtain ⟨vs, hvs, hpart⟩ := h.exists_stretch hb
      have hsub := hpart.sublist.append_left us
      exact ⟨us, vs, ha, hvs, hsub.trans (List.sublist_append_right gap _)⟩
    · rintro b b' ⟨vs, ws, hvs, hws, hsub⟩
      refine ⟨vs, ws, hvs, hws, hsub.trans ?_⟩
      rw [← List.append_assoc]
      exact List.sublist_append_right _ _

end Strewn

/-! ## The text of tokens taken -/

section Taken

variable {c d : Cursor} {fs : List (ParseFault × Token)} (hc : c.On src) (h : c.Goes ts fs d)
include hc h

theorem Cursor.Goes.isPiece : ∀ t ∈ ts, t.IsPiece src := by
  intro t ht
  refine (lex_tokens src).1 t (hc.rest.subset ?_)
  rw [h.rest]
  exact List.mem_append_left _ ht

theorem Cursor.Goes.textOf_ne_nil (hts : ts ≠ []) : Token.textOf src ts ≠ [] := by
  obtain ⟨pre, hpre⟩ := hc.rest
  rw [h.rest] at hpre
  exact ThriftLayout.textOf_ne_nil hpre.symm hts

end Taken

theorem Cursor.Goes.textOf_mark {c d : Cursor} {t : Token} {m : Mark}
    {fs : List (ParseFault × Token)} (hc : c.On src) (h : c.Goes [t] fs d)
    (hm : t.kind = .mark m) : Token.textOf src [t] = [m.byte] := by
  have hpiece := h.isPiece hc t List.mem_cons_self
  rw [hpiece.textOf, hpiece.text_of_mark hm]

/-! ## Reading steps -/

namespace Parse

variable {α β : Type} {c : Cursor} {m : Parse α}

/-- From a cursor a step goes on over tokens, and its result comes from these. -/
def Gives (m : Parse α) (c : Cursor) (Φ : List Token → α → Prop) : Prop :=
  ∃ ts fs, c.Goes ts fs (m c).2 ∧ ∀ a, (m c).1 = some a → Φ ts a

section

variable {Φ : List Token → α → Prop} {Ψ : List Token → β → Prop}

theorem Gives.imp {Φ' : List Token → α → Prop} (hm : m.Gives c Φ)
    (h : ∀ ts a, Φ ts a → Φ' ts a) : m.Gives c Φ' := by
  obtain ⟨ts, fs, hgoes, hΦ⟩ := hm
  exact ⟨ts, fs, hgoes, fun a ha => h ts a (hΦ a ha)⟩

theorem gives_pure {a : α} (h : Φ [] a) : Gives (pure a) c Φ :=
  ⟨[], [], .refl c, fun _ hb => Option.some.inj hb ▸ h⟩

theorem gives_fail (f : ParseFault) (t : Token) : Gives (fail f t) c Φ :=
  ⟨[], _, (Cursor.Goes.refl c).report f t, nofun⟩

theorem Gives.bind (hm : m.Gives c Φ) (hc : c.On src) {f : α → Parse β}
    (hf : ∀ a us d fs, d.On src → c.Goes us fs d → Φ us a →
      (f a).Gives d fun vs b => Ψ (us ++ vs) b) : Gives (m >>= f) c Ψ := by
  obtain ⟨us, fs, hgoes, hΦ⟩ := hm
  unfold Gives
  rcases hrun : m c with ⟨_ | a, d⟩
  · rw [hrun] at hgoes
    rw [bind_of_none hrun]
    exact ⟨us, fs, hgoes, nofun⟩
  · rw [hrun] at hgoes hΦ
    rw [bind_of_some hrun]
    obtain ⟨vs, gs, hmore, hΨ⟩ := hf a us d fs (hgoes.on hc) hgoes (hΦ a rfl)
    exact ⟨us ++ vs, fs ++ gs, hgoes.trans hmore, hΨ⟩

theorem Gives.view {f : α → Parse β} (g : Cursor → α) (h : (f (g c)).Gives c Ψ) :
    Gives (view g >>= f) c Ψ := h

theorem Gives.peek {f : Token → Parse β} (h : (f c.peek).Gives c Ψ) : Gives (peek >>= f) c Ψ := h

/-- A token of a kind is taken or not. -/
theorem Gives.accept (hc : c.On src) {k : TokenKind} (hk : k ≠ .eof) {f : Bool → Parse β}
    (htaken : ∀ t d, d.On src → c.Goes [t] [] d → t.kind = k →
      (f true).Gives d fun vs b => Ψ (t :: vs) b)
    (hleft : (f false).Gives c Ψ) : Gives (accept k >>= f) c Ψ := by
  unfold Gives
  by_cases hsees : c.sees k = true
  · have hpeek : c.peek.kind = k := eq_of_beq hsees
    have hgoes := Cursor.goes_advance_of_peek hc.eof (by rwa [hpeek])
    rw [bind_of_some (accept_of_sees hsees)]
    obtain ⟨vs, gs, hmore, hΨ⟩ := htaken c.peek c.advance (hgoes.on hc) hgoes hpeek
    exact ⟨c.peek :: vs, gs, hgoes.trans hmore, hΨ⟩
  · rw [bind_of_some (accept_of_not_sees hsees)]
    exact hleft

end

theorem gives_expect (hc : c.On src) {k : TokenKind} (hk : k ≠ .eof) (what : Bytes) :
    (expect k what).Gives c fun us t =>
      t = c.peek ∧ us ∈ Phrase.one k ∧ t.text = Token.textOf src us := by
  unfold Gives expect
  split
  · rename_i hsees
    have hpeek : c.peek.kind = k := eq_of_beq hsees
    have hgoes := Cursor.goes_advance_of_peek hc.eof (by rwa [hpeek])
    refine ⟨_, _, hgoes, fun t ht => ?_⟩
    obtain rfl := Option.some.inj ht
    exact ⟨rfl, Phrase.singleton_mem hpeek, (hgoes.isPiece hc _ List.mem_cons_self).textOf.symm⟩
  · exact ⟨[], _, (Cursor.Goes.refl c).report _ _, nofun⟩

theorem gives_expectMark (hc : c.On src) (m : Mark) (what : Bytes) :
    (expect (.mark m) what).Gives c fun us _ =>
      us ∈ Phrase.mark m ∧ Token.textOf src us = [m.byte] := by
  unfold Gives expect
  split
  · rename_i hsees
    have hpeek : c.peek.kind = .mark m := eq_of_beq hsees
    have hgoes := Cursor.goes_advance_of_peek hc.eof (by rw [hpeek]; exact nofun)
    exact ⟨_, _, hgoes, fun t _ => ⟨Phrase.singleton_mem_mark hpeek, hgoes.textOf_mark hc hpeek⟩⟩
  · exact ⟨[], _, (Cursor.Goes.refl c).report _ _, nofun⟩

/-- The next token where it is not the end. -/
theorem gives_next (hc : c.On src) (h : c.peek.kind ≠ .eof) :
    next.Gives c fun us t => t = c.peek ∧ us = [t] ∧ t.text = Token.textOf src us := by
  have hgoes := Cursor.goes_advance_of_peek hc.eof h
  refine ⟨_, _, hgoes, fun t ht => ?_⟩
  obtain rfl := Option.some.inj ht
  exact ⟨rfl, rfl, (hgoes.isPiece hc _ List.mem_cons_self).textOf.symm⟩

/-- What stands from the token at a cursor to where it has gone. -/
theorem gives_rawFrom (hc : c.On src) {d : Cursor} {ts : List Token}
    {fs : List (ParseFault × Token)} (h : c.Goes ts fs d) (hts : ts ≠ []) :
    Gives (view (·.rawFrom c.peek)) d fun us s => us = [] ∧ s = Token.textOf src ts := by
  refine ⟨[], [], .refl d, fun s hs => ⟨rfl, ?_⟩⟩
  exact (Option.some.inj hs).symm.trans (hc.source ▸ h.rawFrom hts)

theorem gives_regionFrom (hc : c.On src) {d : Cursor} {ts : List Token}
    {fs : List (ParseFault × Token)} (h : c.Goes ts fs d) (hts : ts ≠ []) :
    Gives (view (·.regionFrom c.peek)) d fun us r => us = [] ∧ r = .ofTokens src ts := by
  refine ⟨[], [], .refl d, fun r hr => ⟨rfl, ?_⟩⟩
  exact (Option.some.inj hr).symm.trans (hc.source ▸ h.regionFrom hts)

theorem Gives.orSkip {Φ : List Token → α → Prop} (hm : m.Gives c Φ) : (orSkip m).Gives c Φ := by
  obtain ⟨ts, fs, hgoes, hΦ⟩ := hm
  unfold Gives Parse.orSkip
  split
  · rename_i a d hmc
    rw [hmc] at hgoes hΦ
    exact ⟨ts, fs, hgoes, hΦ⟩
  · rename_i d hmc
    rw [hmc] at hgoes
    obtain ⟨us, hus⟩ := hgoes.skipWhile fun t => !t.kind.isDefinition
    exact ⟨us, fs, hus, nofun⟩

section Items

variable {R : List Token → α → Prop} {item : Parse α}
  (hitem : ∀ c : Cursor, c.On src → item.Gives c R)
include hitem

theorem gives_untilMark (close : Mark) (hc : c.On src) :
    Gives (untilMark close item) c (Strewn R) := by
  unfold Gives
  fun_induction Parse.untilMark close item c with
  | case1 c hsees =>
    obtain ⟨ts, hgoes⟩ := c.exists_goes_advance
    exact ⟨ts, [], hgoes, fun as has => Option.some.inj has ▸ .nil ts⟩
  | case2 c _ d hd =>
    obtain ⟨ts, fs, hgoes, -⟩ := hitem c hc
    rw [hd] at hgoes
    exact ⟨ts, fs, hgoes, nofun⟩
  | case3 c _ a d hd hlt as e he ih =>
    obtain ⟨ts, fs, hgoes, hR⟩ := hitem c hc
    rw [hd] at hgoes hR
    obtain ⟨us, gs, hmore, hstrewn⟩ := ih (hgoes.on hc)
    rw [he] at hmore hstrewn
    refine ⟨ts ++ us, fs ++ gs, hgoes.trans hmore, fun bs hbs => ?_⟩
    rw [← Option.some.inj hbs]
    exact .cons_front (hR a rfl) (hstrewn as rfl)
  | case4 c _ a d hd hlt e he ih =>
    obtain ⟨ts, fs, hgoes, -⟩ := hitem c hc
    rw [hd] at hgoes
    obtain ⟨us, gs, hmore, -⟩ := ih (hgoes.on hc)
    rw [he] at hmore
    exact ⟨ts ++ us, fs ++ gs, hgoes.trans hmore, nofun⟩
  | case5 c _ a d hd hlt =>
    obtain ⟨ts, fs, hgoes, -⟩ := hitem c hc
    rw [hd] at hgoes
    exact ⟨ts, fs, hgoes, nofun⟩

omit hitem in
open Computability in
theorem gives_repeated {l : Language Token} (close : Mark)
    (hitem : ∀ c : Cursor, c.On src → item.Gives c fun us _ => us ∈ l) (hc : c.On src) :
    Gives (untilMark close item) c fun us _ => us ∈ l∗ * Phrase.mark close := by
  unfold Gives
  rw [Phrase.kstar_mul]
  fun_induction Parse.untilMark close item c with
  | case1 c hsees =>
    have hpeek : c.peek.kind = .mark close := eq_of_beq hsees
    have hgoes := Cursor.goes_advance_of_peek hc.eof (by rw [hpeek]; exact nofun)
    exact ⟨_, _, hgoes, fun _ _ => .inl (Phrase.singleton_mem_mark hpeek)⟩
  | case2 c _ d hd =>
    obtain ⟨ts, fs, hgoes, -⟩ := hitem c hc
    rw [hd] at hgoes
    exact ⟨ts, fs, hgoes, nofun⟩
  | case3 c _ a d hd hlt as e he ih =>
    obtain ⟨ts, fs, hgoes, hl⟩ := hitem c hc
    rw [hd] at hgoes hl
    obtain ⟨us, gs, hmore, hrest⟩ := ih (hgoes.on hc)
    rw [he, ← Phrase.kstar_mul] at hrest
    rw [he] at hmore
    exact ⟨ts ++ us, fs ++ gs, hgoes.trans hmore, fun _ _ =>
      .inr (Phrase.mul_mem (hl a rfl) (hrest as rfl))⟩
  | case4 c _ a d hd hlt e he ih =>
    obtain ⟨ts, fs, hgoes, -⟩ := hitem c hc
    rw [hd] at hgoes
    obtain ⟨us, gs, hmore, -⟩ := ih (hgoes.on hc)
    rw [he] at hmore
    exact ⟨ts ++ us, fs ++ gs, hgoes.trans hmore, nofun⟩
  | case5 c _ a d hd hlt =>
    obtain ⟨ts, fs, hgoes, -⟩ := hitem c hc
    rw [hd] at hgoes
    exact ⟨ts, fs, hgoes, nofun⟩

/-- A member that cannot be read is a gap. -/
theorem gives_members (hc : c.On src) :
    ∃ ts fs, c.Goes ts fs (members item c).2 ∧ Strewn R ts (members item c).1 := by
  have hone : ∀ c : Cursor, c.On src → ∃ ts fs, c.Goes ts fs
      (if (item c).1.isSome then (item c).2 else Cursor.skipMember c (item c).2) ∧
        Strewn R ts (item c).1.toList := by
    intro c hc
    obtain ⟨ts, fs, hgoes, hR⟩ := hitem c hc
    cases ha : (item c).1 with
    | none =>
      obtain ⟨us, hus⟩ := hgoes.skipMember c
      exact ⟨us, fs, hus, .nil us⟩
    | some a =>
      refine ⟨ts, fs, hgoes, ?_⟩
      simpa using Strewn.cons_front (hR a ha) (.nil [])
  fun_induction Parse.members item c with
  | case1 c => exact ⟨[], [], .refl c, .nil []⟩
  | case2 c _ r d hlt more ih =>
    obtain ⟨ts, fs, hgoes, hstrewn⟩ : ∃ ts fs, c.Goes ts fs d ∧ Strewn R ts r.1.toList := by
      simpa [d, r] using hone c hc
    obtain ⟨us, gs, hmore, hmores⟩ := ih (hgoes.on hc)
    exact ⟨ts ++ us, fs ++ gs, hgoes.trans hmore, hstrewn.append hmores⟩
  | case3 c _ r d hlt => simpa [d, r] using hone c hc

end Items

end Parse

/-! ## The grammar -/

namespace Grammar

open Parse

variable {c : Cursor} (hc : c.On src)
include hc

/-- A comma or a semicolon is the text of its token. -/
theorem gives_separator :
    Gives separator c fun us s => us ∈ Phrase.optional Phrase.separator ∧
      s = Token.textOf src us ∧ IsTerminator s := by
  unfold separator
  refine Gives.accept hc (by decide) (fun t d _ hgoes hkind => ?_) ?_
  · exact gives_pure ⟨.inr (.inl (Phrase.singleton_mem hkind)),
      (hgoes.textOf_mark hc hkind).symm, .inr ⟨_, rfl, rfl⟩⟩
  refine Gives.accept hc (by decide) (fun t d _ hgoes hkind => ?_) ?_
  · exact gives_pure ⟨.inr (.inr (Phrase.singleton_mem hkind)),
      (hgoes.textOf_mark hc hkind).symm, .inr ⟨_, rfl, rfl⟩⟩
  · exact gives_pure ⟨Phrase.nil_mem_optional, rfl, .inl rfl⟩

theorem gives_typeRef : Gives typeRef c fun us s =>
    us ∈ Phrase.type ∧ s = Token.textOf src us := by
  unfold typeRef
  refine (gives_expect hc (by decide) _).bind hc fun first us d fs hd h ⟨hfirst, hus, _⟩ => ?_
  subst hfirst
  have hne := Phrase.ne_nil_of_one hus
  refine Gives.view _ ?_
  simp only
  split
  · rename_i hangle
    have harguments : Gives (typeArguments 0) d fun us _ => us ∈ Phrase.arguments := by
      rcases tries_typeArguments hangle hd.eof with
        ⟨-, ts, hts, hgoes⟩ | ⟨hnone, ts, fs, -, hgoes⟩
      · exact ⟨ts, [], hgoes, fun _ _ => hts⟩
      · exact ⟨ts, fs, hgoes, fun a ha => by rw [hnone] at ha; exact nomatch ha⟩
    refine harguments.bind hd fun _ vs e gs _ he hvs => ?_
    refine (gives_rawFrom hc (h.trans he) (by simp [hne])).imp fun ws s ⟨hws, hs⟩ => ?_
    rw [hws, hs, List.append_nil]
    exact ⟨Phrase.mul_mem hus (.inr hvs), rfl⟩
  · refine (gives_rawFrom hc h hne).imp fun ws s ⟨hws, hs⟩ => ?_
    rw [hws, hs]
    exact ⟨Phrase.mul_mem hus Phrase.nil_mem_optional, by rw [List.append_nil]⟩

theorem gives_value : Gives value c fun us _ => us ∈ Phrase.value := by
  rcases tries_value hc.eof with ⟨-, ts, hts, hgoes⟩ | ⟨hnone, ts, fs, -, hgoes⟩
  · exact ⟨ts, [], hgoes, fun _ _ => hts⟩
  · exact ⟨ts, fs, hgoes, fun a ha => by rw [hnone] at ha; exact nomatch ha⟩

/-- A constant value is the text of its tokens. -/
theorem gives_valueText : Gives valueText c fun us s =>
    us ∈ Phrase.value ∧ s = Token.textOf src us := by
  unfold valueText
  refine Gives.peek ?_
  refine (gives_value hc).bind hc fun _ us d fs _ h hus => ?_
  refine (gives_rawFrom hc h (ne_nil_of_value hus)).imp fun vs s ⟨hvs, hs⟩ => ?_
  rw [hvs, hs, List.append_nil]
  exact ⟨hus, rfl⟩

omit hc in
theorem gives_annotEntry (c : Cursor) (hc : c.On src) : Gives annotEntry c fun us _ => us ∈
    Phrase.one .identifier * Phrase.optional (Phrase.mark .equal * Phrase.value) *
      Phrase.optional Phrase.separator := by
  unfold annotEntry
  rw [mul_assoc]
  refine (gives_expect hc (by decide) _).bind hc fun _ us d fs hd _ ⟨_, hus, _⟩ => ?_
  extract_lets rest
  have hrest : ∀ {e : Cursor}, e.On src →
      Gives (rest ()) e fun vs _ => vs ∈ Phrase.optional Phrase.separator := fun he =>
    (gives_separator he).bind he fun _ _ _ _ _ _ ⟨hvs, _⟩ =>
      gives_pure (by rwa [List.append_nil])
  refine Gives.accept hd (by decide) (fun t e he _ ht => ?_) ?_
  · refine (gives_value he).bind he fun _ vs _ _ hf _ hvs => (hrest hf).imp fun ws _ hws => ?_
    have hvalue : t :: vs ∈ Phrase.optional (Phrase.mark .equal * Phrase.value) :=
      .inr (Phrase.cons_mem_mul ht hvs)
    exact Phrase.mul_mem hus (Phrase.mul_mem hvalue hws)
  · have habsent : [] ∈ Phrase.optional (Phrase.mark .equal * Phrase.value) :=
      Phrase.nil_mem_optional
    exact (hrest hd).imp fun ws _ hws => Phrase.mul_mem hus (Phrase.mul_mem habsent hws)

theorem gives_annots : Gives annots c fun us s =>
    us ∈ Phrase.optional Phrase.annotations ∧ s = Token.textOf src us := by
  unfold annots
  refine Gives.peek ?_
  refine Gives.accept hc (by decide) (fun t d hd h ht => ?_) ?_
  · refine (gives_repeated .rparen gives_annotEntry hd).bind hd fun _ us e fs _ he hus => ?_
    refine (gives_rawFrom hc (h.trans he) (by simp)).imp fun vs s ⟨hvs, hs⟩ => ?_
    rw [hvs, hs, List.append_nil, Phrase.annotations, mul_assoc]
    exact ⟨.inr (Phrase.cons_mem_mul ht hus), rfl⟩
  · exact gives_pure ⟨Phrase.nil_mem_optional, rfl⟩

/-- The number of a field and the colon behind it. -/
theorem gives_fieldId : Gives fieldId c fun us s => SpellsIn src us
    [(Phrase.optional Phrase.number, s),
      (Phrase.optional (Phrase.mark .colon), if s = [] then [] else [Ascii.colon])] := by
  unfold fieldId
  refine Gives.peek ?_
  split
  · have hrest : ∀ {ts d fs}, d.On src → c.Goes ts fs d →
        ts ∈ Phrase.optional (Phrase.mark .minus) → Gives (do
        let _ ← expect .int (utf8 "field id")
        let id ← view (·.rawFrom c.peek)
        let _ ← expect (.mark .colon) (utf8 "':'")
        return id) d fun us s => SpellsIn src (ts ++ us) [(Phrase.optional Phrase.number, s),
          (Phrase.optional (Phrase.mark .colon), if s = [] then [] else [Ascii.colon])] := by
      intro ts d fs hd h hsign
      refine (gives_expect hd (by decide) _).bind hd fun _ us e gs he h' ⟨_, hus, _⟩ => ?_
      have hnumber := h.trans h'
      have hne : ts ++ us ≠ [] := List.append_ne_nil_of_right_ne_nil _ (Phrase.ne_nil_of_one hus)
      refine (gives_rawFrom hc hnumber hne).bind he fun id vs f _ hf _ ⟨hvs, hid⟩ => ?_
      refine (gives_expectMark hf .colon _).bind hf fun _ ws _ _ _ _ ⟨hws, htext⟩ =>
        gives_pure ?_
      have hcolon : Token.textOf src ws = [Ascii.colon] := htext
      rw [hvs, hid, if_neg (hnumber.textOf_ne_nil hc hne), ← hcolon, ← List.append_assoc]
      simpa using SpellsIn.cons (l := Phrase.optional Phrase.number)
        (.inr (Phrase.mul_mem hsign hus)) (.single (.inr hws))
    refine Gives.accept hc (by decide) (fun t d hd h ht => ?_) ?_
    · exact hrest hd h (.inr (Phrase.singleton_mem ht))
    · exact hrest hc (.refl c) Phrase.nil_mem_optional
  · exact gives_pure (.cons Phrase.nil_mem_optional (.cons Phrase.nil_mem_optional .nil))

theorem gives_qualifier : Gives qualifier c fun us s =>
    us ∈ Phrase.optional (Phrase.keyword .required + Phrase.keyword .optional) ∧
      s = Token.textOf src us := by
  unfold qualifier
  refine Gives.peek ?_
  split
  · rename_i hword
    rw [Bool.or_eq_true, beq_iff_eq, beq_iff_eq] at hword
    have hne : c.peek.kind ≠ .eof := by
      intro heof
      rw [heof] at hword
      exact absurd hword (by decide)
    refine (gives_next hc hne).bind hc fun t us d fs _ _ ⟨ht, hus, htext⟩ => gives_pure ?_
    subst ht hus
    exact ⟨.inr (hword.imp Phrase.singleton_mem Phrase.singleton_mem), htext⟩
  · exact gives_pure ⟨Phrase.nil_mem_optional, rfl⟩

omit hc in
theorem spells_equals {t : Token} {us : List Token} {l : Language Token}
    (hkind : t.kind = .mark .equal) (ht : Token.textOf src [t] = [Ascii.equals]) (hl : us ∈ l)
    (hus : Token.textOf src us ≠ []) : SpellsIn src (t :: us)
      [(Phrase.optional (Phrase.mark .equal),
          if Token.textOf src us = [] then [] else [Ascii.equals]),
        (Phrase.optional l, Token.textOf src us)] := by
  have hmark : [t] ∈ Phrase.optional (Phrase.mark .equal) := .inr (Phrase.singleton_mem hkind)
  rw [if_neg hus, ← ht]
  exact .cons hmark (.single (.inr hl))

omit hc in
theorem spells_nothing (l : Language Token) : SpellsIn src []
    [(Phrase.optional (Phrase.mark .equal), []), (Phrase.optional l, [])] :=
  .cons Phrase.nil_mem_optional (.cons Phrase.nil_mem_optional .nil)

theorem gives_field : Gives field c (Field.From src) := by
  unfold field
  refine Gives.peek ?_
  refine (gives_fieldId hc).bind hc fun id us₁ d₁ _ hd₁ h₁ hid => ?_
  refine (gives_qualifier hd₁).bind hd₁ fun qual us₂ d₂ _ hd₂ h₂ ⟨hus₂, hqual⟩ => ?_
  refine (gives_typeRef hd₂).bind hd₂ fun type us₃ d₃ _ hd₃ h₃ ⟨hus₃, htype⟩ => ?_
  refine (gives_expect hd₃ (by decide) _).bind hd₃ fun name us₄ d₄ _ hd₄ h₄ ⟨_, hus₄, hname⟩ => ?_
  have hlead := h₁.trans (h₂.trans (h₃.trans h₄))
  have hne := Phrase.ne_nil_of_one hus₄
  extract_lets rest
  have hrest : ∀ {default : Bytes} {us₅ : List Token} {d₅ : Cursor} {fs}, d₅.On src →
      d₄.Goes us₅ fs d₅ →
      SpellsIn src us₅ [(Phrase.optional (Phrase.mark .equal),
        if default = [] then [] else [Ascii.equals]), (Phrase.optional Phrase.value, default)] →
      Gives (rest default) d₅ fun vs f =>
        Field.From src (us₁ ++ (us₂ ++ (us₃ ++ (us₄ ++ (us₅ ++ vs))))) f := by
    intro default us₅ d₅ fs hd₅ h₅ hdefault
    refine (gives_annots hd₅).bind hd₅ fun annot us₆ d₆ _ hd₆ h₆ ⟨hus₆, hannot⟩ => ?_
    refine (gives_separator hd₆).bind hd₆ fun sep us₇ d₇ _ hd₇ h₇ ⟨hus₇, hsep, hterminator⟩ => ?_
    have hall := hlead.trans (h₅.trans (h₆.trans h₇))
    refine (gives_regionFrom hc hall (by simp [hne])).bind hd₇ fun region us₈ _ _ _ _ hregion => ?_
    obtain ⟨rfl, hregion⟩ := hregion
    refine gives_pure ⟨by simp [hne], by simpa using hregion, ?_, hterminator⟩
    subst hqual htype hannot hsep
    rw [Field.phrases, hname]
    have hspelled := hid.append (.cons hus₂ (.cons hus₃ (.cons hus₄ (hdefault.append
      (.cons hus₆ (.single hus₇))))))
    simp only [List.append_nil]
    exact hspelled
  refine Gives.accept hd₄ (by decide) (fun t d₅ hd₅ h₅ ht => ?_) ?_
  · refine (gives_valueText hd₅).bind hd₅ fun default us₆ d₆ _ hd₆ h₆ ⟨hus₆, hdefault⟩ => ?_
    subst hdefault
    exact hrest hd₆ (h₅.trans h₆) (spells_equals ht (h₅.textOf_mark hd₄ ht) hus₆
      (h₆.textOf_ne_nil hd₅ (ne_nil_of_value hus₆)))
  · exact hrest hd₄ (.refl d₄) (spells_nothing _)

/-- The number of an enum member is the text of its tokens. -/
theorem gives_memberValue : Gives memberValue c fun us s =>
    us ∈ Phrase.number ∧ s = Token.textOf src us := by
  unfold memberValue
  refine Gives.peek ?_
  have hrest : ∀ {ts d fs}, d.On src → c.Goes ts fs d →
      ts ∈ Phrase.optional (Phrase.mark .minus) → Gives (do
      let _ ← expect .int (utf8 "enum value")
      view (·.rawFrom c.peek)) d fun us s =>
        ts ++ us ∈ Phrase.number ∧ s = Token.textOf src (ts ++ us) := by
    intro ts d fs hd h hsign
    refine (gives_expect hd (by decide) _).bind hd fun _ us e _ _ h' ⟨_, hus, _⟩ => ?_
    have hne : ts ++ us ≠ [] := List.append_ne_nil_of_right_ne_nil _ (Phrase.ne_nil_of_one hus)
    refine (gives_rawFrom hc (h.trans h') hne).imp fun vs s ⟨hvs, hs⟩ => ?_
    rw [hvs, hs, List.append_nil]
    exact ⟨Phrase.mul_mem hsign hus, rfl⟩
  refine Gives.accept hc (by decide) (fun t d hd h ht => ?_) ?_
  · exact hrest hd h (.inr (Phrase.singleton_mem ht))
  · exact hrest hc (.refl c) Phrase.nil_mem_optional

/-- The name and number of a member are spelled by its first tokens. -/
def EntrySpelled (src : Bytes) (us : List Token) (p : Bytes × Bytes) : Prop :=
  us ≠ [] ∧ SpellsIn src us [(Phrase.one .identifier + Phrase.one .string, p.1),
    (Phrase.optional (Phrase.mark .equal), if p.2 = [] then [] else [Ascii.equals]),
    (Phrase.optional Phrase.number, p.2)]

theorem gives_enumEntry : Gives enumEntry c (EntrySpelled src) := by
  unfold enumEntry
  refine (gives_expect hc (by decide) _).bind hc fun name us d _ hd h ⟨_, hus, hname⟩ => ?_
  have hne := Phrase.ne_nil_of_one hus
  refine Gives.accept hd (by decide) (fun t e he h' ht => ?_) ?_
  · refine (gives_memberValue he).bind he fun number vs _ _ _ h'' ⟨hvs, hnumber⟩ => gives_pure ?_
    refine ⟨by simp [hne], ?_⟩
    rw [List.append_nil, hname, hnumber]
    exact .cons (.inl hus) (spells_equals ht (h'.textOf_mark hd ht) hvs
      (h''.textOf_ne_nil he (Phrase.ne_nil_of_number hvs)))
  · refine gives_pure ⟨by simp [hne], ?_⟩
    rw [hname]
    exact .cons (.inl hus) (spells_nothing _)

theorem gives_senumEntry : Gives senumEntry c (EntrySpelled src) := by
  unfold senumEntry
  refine (gives_expect hc (by decide) _).bind hc fun name us _ _ _ _ ⟨_, hus, hname⟩ =>
    gives_pure ⟨by simp [Phrase.ne_nil_of_one hus], ?_⟩
  rw [hname]
  exact .cons (.inr hus) (spells_nothing _)

/-- A member of an enum or senum is read from tokens. -/
theorem gives_member {entry : Parse (Bytes × Bytes)} (hentry : Gives entry c (EntrySpelled src)) :
    Gives (member entry) c (Member.From src) := by
  unfold member
  refine Gives.peek ?_
  refine hentry.bind hc fun ⟨name, number⟩ us₁ d₁ _ hd₁ h₁ ⟨hus₁, hentry⟩ => ?_
  refine (gives_annots hd₁).bind hd₁ fun annot us₂ d₂ _ hd₂ h₂ ⟨hus₂, hannot⟩ => ?_
  refine (gives_separator hd₂).bind hd₂ fun sep us₃ d₃ _ hd₃ h₃ ⟨hus₃, hsep, hterminator⟩ => ?_
  have hall := h₁.trans (h₂.trans h₃)
  refine (gives_regionFrom hc hall (by simp [hus₁])).bind hd₃ fun region us₄ _ _ _ _ hregion => ?_
  obtain ⟨rfl, hregion⟩ := hregion
  refine gives_pure ⟨by simp [hus₁], by simpa using hregion, ?_, hterminator⟩
  subst hannot hsep
  rw [Member.phrases]
  simp only [List.append_nil]
  exact hentry.append (.cons hus₂ (.single hus₃))

theorem gives_params : Gives params c (Strewn (Field.From src)) := by
  unfold params
  refine (gives_expect hc (by decide) _).bind hc fun _ us d _ hd _ _ => ?_
  exact (gives_untilMark (fun _ => gives_field) .rparen hd).imp fun _ _ h => h.gap_append us

/-- A function is read from tokens, and so are its parameters and what it throws. -/
theorem gives_function : Gives function c (Function.From src) := by
  unfold function
  refine Gives.peek ?_
  extract_lets rest
  have hrest : ∀ {oneway : Bool} {us₁ : List Token} {d₁ : Cursor} {fs}, d₁.On src →
      c.Goes us₁ fs d₁ → Gives (rest oneway) d₁ fun vs f => Function.From src (us₁ ++ vs) f := by
    intro oneway us₁ d₁ fs hd₁ h₁
    refine (gives_typeRef hd₁).bind hd₁ fun returnType us₂ d₂ _ hd₂ h₂ ⟨hus₂, _⟩ => ?_
    have hne₂ := Phrase.ne_nil_of_type hus₂
    refine (gives_expect hd₂ (by decide) _).bind hd₂ fun name us₃ d₃ _ hd₃ h₃ _ => ?_
    refine (gives_params hd₃).bind hd₃ fun ps us₄ d₄ _ hd₄ h₄ hparams => ?_
    have hlead := h₁.trans (h₂.trans (h₃.trans h₄))
    extract_lets last
    have hlast : ∀ {throws : List Field} {us₅ : List Token} {d₅ : Cursor} {fs}, d₅.On src →
        d₄.Goes us₅ fs d₅ → Strewn (Field.From src) us₅ throws →
        Gives (last throws) d₅ fun vs f =>
          Function.From src (us₁ ++ (us₂ ++ (us₃ ++ (us₄ ++ (us₅ ++ vs))))) f := by
      intro throws us₅ d₅ fs hd₅ h₅ hthrows
      refine (gives_annots hd₅).bind hd₅ fun annot us₆ d₆ _ hd₆ h₆ _ => ?_
      refine (gives_separator hd₆).bind hd₆ fun _ us₇ d₇ _ hd₇ h₇ _ => ?_
      have hall := hlead.trans (h₅.trans (h₆.trans h₇))
      refine (gives_regionFrom hc hall (by simp [hne₂])).bind hd₇ fun region us₈ _ _ _ _ h₈ => ?_
      obtain ⟨rfl, hregion⟩ := h₈
      refine gives_pure ⟨by simp [hne₂], by simpa using hregion, ?_⟩
      have hfields := (hparams.append (hthrows.append_gap (us₆ ++ us₇))).gap_append
        (us₁ ++ (us₂ ++ us₃))
      simpa using hfields
    refine Gives.accept hd₄ (by decide) (fun t d₅ hd₅ h₅ _ => ?_) ?_
    · refine (gives_params hd₅).bind hd₅ fun throws us₆ d₆ _ hd₆ h₆ hthrows => ?_
      exact hlast hd₆ (h₅.trans h₆) (hthrows.gap_append [t])
    · exact hlast hd₄ (.refl d₄) (.nil [])
  refine Gives.accept hc (by decide) (fun t d hd h _ => ?_) ?_
  · exact hrest hd h
  · refine Gives.accept hc (by decide) (fun t d hd h _ => ?_) ?_
    · exact hrest hd h
    · exact hrest hc (.refl c)

/-! ## Declarations -/

theorem gives_header (what : Bytes) : Gives (header what) c fun _ _ => True := by
  unfold header
  refine (gives_expect hc (by decide) _).bind hc fun name _ d _ hd _ _ => ?_
  extract_lets rest
  have hrest : ∀ {base : Bytes} {e : Cursor}, e.On src → Gives (rest base) e fun _ _ => True := by
    intro base e he
    refine Gives.peek ?_
    extract_lets last
    have hlast : ∀ {f : Cursor}, f.On src → Gives (last ()) f fun _ _ => True := fun hf =>
      (gives_expect hf (by decide) _).bind hf fun _ _ _ _ _ _ _ => gives_pure trivial
    split
    · rename_i hxsd
      have hne : e.peek.kind ≠ .eof := by
        intro heof
        rw [heof] at hxsd
        exact absurd hxsd (by simp)
      exact (gives_next he hne).bind he fun _ _ _ _ hf _ _ => hlast hf
    · exact hlast he
  refine Gives.accept hd (by decide) (fun t e he _ _ => ?_) ?_
  · exact (gives_expect he (by decide) _).bind he fun base _ _ _ hf _ _ => hrest hf
  · exact hrest hd

theorem gives_body {α : Type} {R : List Token → α → Prop} {item : Parse α}
    (hitem : ∀ c : Cursor, c.On src → item.Gives c R) (opener : Token) :
    Gives (body opener item) c (Strewn R) := by
  obtain ⟨ts, fs, hgoes, hstrewn⟩ := gives_members hitem hc
  unfold Gives body
  simp only
  split
  · obtain ⟨us, hus⟩ := (members item c).2.exists_goes_advance
    refine ⟨ts ++ us, fs ++ [], hgoes.trans hus, fun as has => ?_⟩
    rw [← Option.some.inj has]
    exact hstrewn.append_gap us
  · refine ⟨ts, _, hgoes.report _ _, fun as has => ?_⟩
    rw [← Option.some.inj has]
    exact hstrewn

theorem gives_finalAnnots : Gives finalAnnots c fun _ _ => True := by
  obtain ⟨ts, fs, hgoes, -⟩ := gives_annots hc
  exact ⟨ts, fs, hgoes, fun _ _ => trivial⟩

/-- A declaration ends with a separator, and has the region from its first token on. -/
theorem gives_declEnd {ts : List Token} {d : Cursor} {fs : List (ParseFault × Token)}
    (hd : d.On src) (h : c.Goes ts fs d) (hts : ts ≠ []) {make : Region → Decl}
    {all : List Token → List Token} (hall : ∀ us, all us = ts ++ us)
    (hmake : ∀ r us, (make r).region = r ∧ (make r).body.From src (ts ++ us)) :
    Gives (do
      let _ ← separator
      let region ← view (·.regionFrom c.peek)
      return make region) d fun us x => Decl.From src (all us) x := by
  refine (gives_separator hd).bind hd fun _ us e _ he h' _ => ?_
  have hne : ts ++ us ≠ [] := by simp [hts]
  refine (gives_regionFrom hc (h.trans h') hne).bind he fun r vs _ _ _ _ ⟨hvs, hr⟩ => gives_pure ?_
  rw [hvs, hr, List.append_nil, List.append_nil, hall]
  exact ⟨hne, (hmake _ us).1, (hmake _ us).2⟩

section Opened

variable (hk : c.peek.kind ≠ .eof)
include hk

theorem gives_includeDecl (kind : DeclKind) : Gives (includeDecl kind) c (Decl.From src) := by
  unfold includeDecl
  refine (gives_next hc hk).bind hc fun first us₁ d₁ _ hd₁ h₁ ⟨hfirst, hus₁, _⟩ => ?_
  refine (gives_expect hd₁ (by decide) _).bind hd₁ fun path us₂ d₂ _ hd₂ h₂ _ => ?_
  subst hfirst
  exact gives_declEnd hc hd₂ (h₁.trans h₂) (by simp [hus₁]) (fun _ => by simp)
    fun _ _ => ⟨rfl, trivial⟩

omit hk in
theorem gives_namespaceScope : Gives namespaceScope c fun _ _ => True := by
  unfold namespaceScope
  refine Gives.peek ?_
  split
  · rename_i hscope
    have hne : c.peek.kind ≠ .eof := by
      intro heof
      rw [heof] at hscope
      exact absurd hscope (by decide)
    exact (gives_next hc hne).imp fun _ _ _ => trivial
  · exact gives_fail _ _

theorem gives_namespaceDecl : Gives namespaceDecl c (Decl.From src) := by
  unfold namespaceDecl
  refine (gives_next hc hk).bind hc fun first us₁ d₁ _ hd₁ h₁ ⟨hfirst, hus₁, _⟩ => ?_
  refine (gives_namespaceScope hd₁).bind hd₁ fun scope us₂ d₂ _ hd₂ h₂ _ => ?_
  refine (gives_expect hd₂ (by decide) _).bind hd₂ fun name us₃ d₃ _ hd₃ h₃ _ => ?_
  refine (gives_annots hd₃).bind hd₃ fun annot us₄ d₄ _ hd₄ h₄ _ => ?_
  subst hfirst
  exact gives_declEnd hc hd₄ (h₁.trans (h₂.trans (h₃.trans h₄))) (by simp [hus₁])
    (fun _ => by simp) fun _ _ => ⟨rfl, trivial⟩

theorem gives_typedefDecl : Gives typedefDecl c (Decl.From src) := by
  unfold typedefDecl
  refine (gives_next hc hk).bind hc fun first us₁ d₁ _ hd₁ h₁ ⟨hfirst, hus₁, _⟩ => ?_
  refine (gives_typeRef hd₁).bind hd₁ fun type us₂ d₂ _ hd₂ h₂ _ => ?_
  refine (gives_expect hd₂ (by decide) _).bind hd₂ fun name us₃ d₃ _ hd₃ h₃ _ => ?_
  refine (gives_annots hd₃).bind hd₃ fun annot us₄ d₄ _ hd₄ h₄ _ => ?_
  subst hfirst
  exact gives_declEnd hc hd₄ (h₁.trans (h₂.trans (h₃.trans h₄))) (by simp [hus₁])
    (fun _ => by simp) fun _ _ => ⟨rfl, trivial⟩

theorem gives_constDecl : Gives constDecl c (Decl.From src) := by
  unfold constDecl
  refine (gives_next hc hk).bind hc fun first us₁ d₁ _ hd₁ h₁ ⟨hfirst, hus₁, _⟩ => ?_
  refine (gives_typeRef hd₁).bind hd₁ fun type us₂ d₂ _ hd₂ h₂ _ => ?_
  refine (gives_expect hd₂ (by decide) _).bind hd₂ fun name us₃ d₃ _ hd₃ h₃ _ => ?_
  refine (gives_expect hd₃ (by decide) _).bind hd₃ fun _ us₄ d₄ _ hd₄ h₄ _ => ?_
  refine (gives_valueText hd₄).bind hd₄ fun val us₅ d₅ _ hd₅ h₅ _ => ?_
  subst hfirst
  exact gives_declEnd hc hd₅ (h₁.trans (h₂.trans (h₃.trans (h₄.trans h₅)))) (by simp [hus₁])
    (fun _ => by simp) fun _ _ => ⟨rfl, trivial⟩

theorem gives_bodyDecl {α : Type} {R : List Token → α → Prop} {item : Parse α}
    (hitem : ∀ c : Cursor, c.On src → item.Gives c R) (kind : DeclKind) (what : Bytes)
    {wrap : List α → DeclBody} (hwrap : ∀ ts as, Strewn R ts as → (wrap as).From src ts) :
    Gives (bodyDecl kind what item wrap) c (Decl.From src) := by
  unfold bodyDecl
  refine (gives_next hc hk).bind hc fun first us₁ d₁ _ hd₁ h₁ ⟨hfirst, hus₁, _⟩ => ?_
  refine (gives_header hd₁ what).orSkip.bind hd₁ fun ⟨name, base⟩ us₂ d₂ _ hd₂ h₂ _ => ?_
  refine (gives_body hd₂ hitem first).bind hd₂ fun items us₃ d₃ _ hd₃ h₃ hitems => ?_
  refine (gives_finalAnnots hd₃).bind hd₃ fun annot us₄ d₄ _ hd₄ h₄ _ => ?_
  subst hfirst
  have hall : ∀ us, (wrap items).From src ((us₁ ++ (us₂ ++ (us₃ ++ us₄))) ++ us) := by
    intro us
    have hstrewn := (hitems.append_gap (us₄ ++ us)).gap_append (us₁ ++ us₂)
    simp only [List.append_assoc] at hstrewn ⊢
    exact hwrap _ items hstrewn
  exact gives_declEnd hc hd₄ (h₁.trans (h₂.trans (h₃.trans h₄))) (by simp [hus₁])
    (fun _ => by simp) fun _ us => ⟨rfl, hall us⟩

end Opened

omit hc in
theorem gives_stray (c : Cursor) (Φ : List Token → Decl → Prop) : Gives stray c Φ := by
  obtain ⟨ts, hgoes⟩ := c.exists_goes_advance
  exact ⟨ts, _, hgoes.report (.topLevel c.peek.text) c.peek, nofun⟩

theorem gives_decl : Gives decl c (Decl.From src) := by
  have hne : ∀ {k : Keyword}, c.peek.kind = .keyword k → c.peek.kind ≠ .eof := by
    intro k hk
    rw [hk]
    exact nofun
  unfold Gives decl
  split
  · rename_i hk; exact (gives_includeDecl hc (hne hk) _).orSkip
  · rename_i hk; exact (gives_includeDecl hc (hne hk) _).orSkip
  · rename_i hk; exact (gives_namespaceDecl hc (hne hk)).orSkip
  · rename_i hk; exact (gives_typedefDecl hc (hne hk)).orSkip
  · rename_i hk; exact (gives_constDecl hc (hne hk)).orSkip
  · rename_i hk
    exact gives_bodyDecl hc (hne hk) (fun _ hd => gives_member hd (gives_enumEntry hd)) _ _
      fun _ _ h => h
  · rename_i hk
    exact gives_bodyDecl hc (hne hk) (fun _ hd => gives_member hd (gives_senumEntry hd)) _ _
      fun _ _ h => h
  · rename_i hk; exact gives_bodyDecl hc (hne hk) (fun _ => gives_field) _ _ fun _ _ h => h
  · rename_i hk; exact gives_bodyDecl hc (hne hk) (fun _ => gives_field) _ _ fun _ _ h => h
  · rename_i hk; exact gives_bodyDecl hc (hne hk) (fun _ => gives_field) _ _ fun _ _ h => h
  · rename_i hk; exact gives_bodyDecl hc (hne hk) (fun _ => gives_function) _ _ fun _ _ h => h
  · exact (gives_stray c _).orSkip

theorem decls_strewn : ∃ ts fs, c.Goes ts fs (decls c).2 ∧
    Strewn (Decl.From src) ts (decls c).1 := by
  have hone : ∀ c : Cursor, c.On src → ∃ ts fs, c.Goes ts fs (decl c).2 ∧
      Strewn (Decl.From src) ts (decl c).1.toList := by
    intro c hc
    obtain ⟨ts, fs, hgoes, hfrom⟩ := gives_decl hc
    cases hd : (decl c).1 with
    | none => exact ⟨ts, fs, hgoes, .nil ts⟩
    | some d => exact ⟨ts, fs, hgoes, by simpa using Strewn.cons_front (hfrom d hd) (.nil [])⟩
  fun_induction decls c with
  | case1 c => exact ⟨[], [], .refl c, .nil []⟩
  | case2 c _ r hlt more ih =>
    obtain ⟨ts, fs, hgoes, hstrewn⟩ := hone c hc
    obtain ⟨us, gs, hmore, hmores⟩ := ih (hgoes.on hc)
    exact ⟨ts ++ us, fs ++ gs, hgoes.trans hmore, hstrewn.append hmores⟩
  | case3 c _ r hlt => exact hone c hc

end Grammar

/-! ## Documents -/

theorem Cursor.ofLexed_on (src : Bytes) : (Cursor.ofLexed src (lex src)).On src where
  source := rfl
  eof := by rw [Cursor.ofLexed, Lexer.lex_eq]
  rest := List.suffix_refl _

/-- The declarations of a document are read from the tokens of its source, in order. -/
theorem parse_strewn (uri src : Bytes) :
    Strewn (Decl.From src) (lex src).good (Document.parse uri src).body := by
  obtain ⟨ts, fs, hgoes, hstrewn⟩ := Grammar.decls_strewn (Cursor.ofLexed_on src)
  have hall := hstrewn.append_gap (Grammar.decls (.ofLexed src (lex src))).2.rest
  rw [← hgoes.rest] at hall
  exact hall

end ThriftLayout
