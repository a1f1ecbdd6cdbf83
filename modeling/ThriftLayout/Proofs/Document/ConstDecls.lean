import ThriftLayout.Proofs.Document.AloneOnLine
import ThriftLayout.Proofs.Document.Derivations
import ThriftLayout.Proofs.Document.SingleLine

/-!
# A constant alone on a line

A line that is read as one constant, without a diagnostic, holds nothing but the parts of that
constant: the word, the type, the name, the equals sign, the value and perhaps a separator, with
blanks between them and around them.

Results:

* `Grammar.decls_forall₂`: without a fault each declaration is read from a phrase of its own.
* `Decl.spelled_on_line`: the parts of a constant on its line.
-/
namespace ThriftLayout

open Phrase (one mark keyword optional)

/-! ## What declarations are read -/

namespace Parse

variable {α β : Type} {P : α → Prop}

/-- Whatever is read has a property. -/
def Yields (m : Parse α) (P : α → Prop) : Prop := ∀ c a, (m c).1 = some a → P a

theorem yields_pure {a : α} (h : P a) : Yields (pure a) P := fun _ _ hb => Option.some.inj hb ▸ h

theorem Yields.bind {m : Parse β} {f : β → Parse α} (h : ∀ b, (f b).Yields P) :
    (m >>= f).Yields P := by
  intro c a ha
  rcases hrun : m c with ⟨_ | b, d⟩
  · rw [bind_of_none hrun] at ha
    exact nomatch ha
  · rw [bind_of_some hrun] at ha
    exact h b d a ha

theorem yields_fail (f : ParseFault) (t : Token) : Yields (fail f t) P := by
  intro c a ha
  have hnone : none = some a := ha
  cases hnone

theorem Yields.orSkip {m : Parse α} (h : m.Yields P) : (orSkip m).Yields P := by
  intro c a ha
  unfold Parse.orSkip at ha
  split at ha
  · rename_i b d hrun
    exact h c a (by rw [hrun]; exact ha)
  · exact nomatch ha

end Parse

namespace Grammar

open Parse

/-- Only behind the word of constants a constant is read. -/
theorem const_of_decl {c : Cursor} {d : Decl} (h : (decl c).1 = some d) (hd : d.kind = .const) :
    c.peek.kind = .keyword .const := by
  have hother {m : Parse Decl} (hm : m.Yields fun d => d.kind ≠ .const)
      (hrun : decl c = m c) : c.peek.kind = .keyword .const := absurd hd (hm c d (hrun ▸ h))
  have hinclude (kind : DeclKind) (hkind : kind ≠ .const) :
      (includeDecl kind).Yields fun d => d.kind ≠ .const :=
    .bind fun _ => .bind fun _ => .bind fun _ => .bind fun _ => yields_pure hkind
  have hnamespace : namespaceDecl.Yields fun d => d.kind ≠ .const :=
    .bind fun _ => .bind fun _ => .bind fun _ => .bind fun _ => .bind fun _ => .bind fun _ =>
      yields_pure nofun
  have htypedef : typedefDecl.Yields fun d => d.kind ≠ .const :=
    .bind fun _ => .bind fun _ => .bind fun _ => .bind fun _ => .bind fun _ => .bind fun _ =>
      yields_pure nofun
  have hbody {α : Type} (kind : DeclKind) (what : Bytes) (item : Parse α)
      (wrap : List α → DeclBody) (hkind : kind ≠ .const) :
      (bodyDecl kind what item wrap).Yields fun d => d.kind ≠ .const :=
    .bind fun _ => .bind fun _ => .bind fun _ => .bind fun _ => .bind fun _ => .bind fun _ =>
      yields_pure hkind
  have hstray : stray.Yields fun d => d.kind ≠ .const := .bind fun _ => yields_fail _ _
  have hrun := decl.eq_def c
  split at hrun
  · exact hother (hinclude _ (by decide)).orSkip hrun
  · exact hother (hinclude _ (by decide)).orSkip hrun
  · exact hother hnamespace.orSkip hrun
  · exact hother htypedef.orSkip hrun
  · assumption
  · exact hother (hbody _ _ _ _ (by decide)) hrun
  · exact hother (hbody _ _ _ _ (by decide)) hrun
  · exact hother (hbody _ _ _ _ (by decide)) hrun
  · exact hother (hbody _ _ _ _ (by decide)) hrun
  · exact hother (hbody _ _ _ _ (by decide)) hrun
  · exact hother (hbody _ _ _ _ (by decide)) hrun
  · exact hother hstray.orSkip hrun

/-- A declaration that is read from tokens of a source without a fault. -/
def ReadFrom (src : Bytes) (ts : List Token) (d : Decl) : Prop :=
  ∃ c e : Cursor, c.On src ∧ decl c = (some d, e) ∧ c.Goes ts [] e

/-- Declarations that stand to the end of the source are read one by one. -/
theorem decls_forall₂ {src : Bytes} {c : Cursor} (hc : c.On src) {phrases : List (List Token)}
    (hphrases : ∀ ts ∈ phrases, ts ∈ Phrase.declaration) (hrest : c.rest = phrases.flatten) :
    List.Forall₂ (ReadFrom src) phrases (decls c).1 := by
  induction phrases generalizing c with
  | nil =>
    have hend : c.atEnd = true := List.isEmpty_iff.mpr hrest
    rw [decls, if_pos hend]
    exact .nil
  | cons ts phrases ih =>
    rw [List.forall_mem_cons] at hphrases
    rw [List.flatten_cons] at hrest
    obtain ⟨d, e, hrun, hgoes, hdecls⟩ := decls_cons hc.eof hphrases.1 hphrases.2 hrest
    rw [hdecls]
    exact .cons ⟨c, e, hc, hrun, hgoes⟩ (ih (hgoes.on hc) hphrases.2 (hgoes.rest_eq hrest))

end Grammar

/-! ## The tokens of a constant -/

/-- The parts of a constant and the phrases they are: a word, the type, the name, the equals sign,
the value and a separator. -/
def Decl.constPhrases (d : Decl) (word sep : Bytes) : List (Language Token × Bytes) :=
  [(keyword .const, word), (Phrase.type, d.type), (one .identifier, d.name),
    (mark .equal, [Ascii.equals]), (Phrase.value, d.value), (optional Phrase.separator, sep)]

def Decl.ConstFrom (src : Bytes) (ts : List Token) (d : Decl) : Prop :=
  ∃ word sep, SpellsIn src ts (d.constPhrases word sep) ∧ IsTerminator sep

open Parse in
theorem Grammar.gives_constParts {src : Bytes} {c : Cursor} (hc : c.On src)
    (hk : c.peek.kind = .keyword .const) :
    Gives constDecl c (Decl.ConstFrom src) := by
  unfold constDecl
  refine (gives_next hc (by simp [hk])).bind hc fun first us₁ d₁ _ hd₁ h₁ ⟨hfirst, hus₁, _⟩ => ?_
  refine (gives_typeRef hd₁).bind hd₁ fun type us₂ d₂ _ hd₂ h₂ ⟨hus₂, htype⟩ => ?_
  refine (gives_expect hd₂ (by decide) _).bind hd₂ fun name us₃ d₃ _ hd₃ h₃ ⟨_, hus₃, hname⟩ => ?_
  refine (gives_expectMark hd₃ .equal _).bind hd₃ fun _ us₄ d₄ _ hd₄ h₄ ⟨hus₄, hequals⟩ => ?_
  refine (gives_valueText hd₄).bind hd₄ fun val us₅ d₅ _ hd₅ h₅ ⟨hus₅, hval⟩ => ?_
  refine (gives_separator hd₅).bind hd₅ fun sep us₆ d₆ _ hd₆ h₆ ⟨hus₆, hsep, hterminator⟩ => ?_
  have hall := h₁.trans (h₂.trans (h₃.trans (h₄.trans (h₅.trans h₆))))
  subst hfirst
  refine (gives_regionFrom hc hall (by simp [hus₁])).bind hd₆ fun _ us₇ _ _ _ _ ⟨hus₇, _⟩ =>
    gives_pure ?_
  subst hus₁ htype hval hsep hus₇
  have hword : [c.peek] ∈ keyword .const := ⟨c.peek, rfl, hk⟩
  refine ⟨Token.textOf src [c.peek], _, ?_, hterminator⟩
  rw [Decl.constPhrases, hname, ← show Token.textOf src us₄ = [Ascii.equals] from hequals]
  simp only [List.append_nil]
  exact .cons hword (.cons hus₂ (.cons hus₃ (.cons hus₄ (.cons hus₅ (.single hus₆)))))

/-- A source that is read as one constant consists of its tokens. -/
theorem constFrom_of_body {uri src : Bytes} {d : Decl}
    (hbody : (Document.parse uri src).body = [d])
    (hnone : (Document.parse uri src).diagnostics = []) (hd : d.kind = .const) :
    d.ConstFrom src (lex src).good := by
  obtain ⟨hfaults, phrases, htokens, hphrases⟩ := (diagnostics_eq_nil_iff uri src).mp hnone
  have hgood : (lex src).good = phrases.flatten := (good_eq_tokens hfaults).trans htokens
  have hon := Cursor.ofLexed_on src
  have hread := Grammar.decls_forall₂ hon hphrases hgood
  rw [show (Grammar.decls (.ofLexed src (lex src))).1 = [d] from hbody] at hread
  obtain ⟨ts, _, ⟨c, e, hc, hrun, hgoes⟩, hnil, rfl⟩ := List.forall₂_cons_right_iff.mp hread
  obtain rfl := List.forall₂_nil_right_iff.mp hnil
  have hk := Grammar.const_of_decl (by rw [hrun]) hd
  have hconst : Grammar.decl c = Parse.orSkip Grammar.constDecl c := by
    rw [Grammar.decl, hk]
  obtain ⟨us, fs, hgoes', hfrom⟩ := (Grammar.gives_constParts hc hk).orSkip
  rw [← hconst, hrun] at hgoes' hfrom
  have hts : us = ts := List.append_cancel_right (hgoes'.rest.symm.trans hgoes.rest)
  rw [hgood, List.flatten_singleton, ← hts]
  exact hfrom d rfl

/-! ## A line without a fault -/

namespace Lexer

theorem startsComment_of_comment {b : UInt8} {rest : Bytes} (h : IsSingleLine (b :: rest))
    {k : CommentKind} (hk : (classify b rest).1 = .comment k) : startsComment {} b rest = true := by
  have hbreaks : (classify b rest).1.Breaks := by rw [hk]; trivial
  have hbreaking := breaking_of_line h hbreaks
  generalize classify b rest = r at hk hbreaking
  cases hbreaking with
  | comment _ hcomment =>
    obtain hnil | ⟨more, heq | heq⟩ := hcomment
    · exact absurd hnil (List.cons_ne_nil b rest)
    · rw [(List.cons.inj heq).1]
      rfl
    · obtain ⟨rfl, rfl⟩ := List.cons.inj heq
      rfl
  | literal => cases hk

end Lexer

/-- The code of a line ends in front of a comment, at the latest. -/
theorem length_code_le {q : Quote} {u rest : Bytes} {b : UInt8}
    (h : startsComment (q.run u) b rest = true) :
    (splitLineComment.go q (u ++ b :: rest)).1.length ≤ u.length := by
  induction u generalizing q with
  | nil =>
    rw [List.nil_append, splitLineComment.go]
    exact (if_pos (c := _ = true) h).symm ▸ Nat.le_refl 0
  | cons c u ih =>
    rw [List.cons_append, splitLineComment.go]
    split
    · exact Nat.zero_le _
    · exact Nat.succ_le_succ (ih h)

section Faultless

open Lexer

variable {src : Bytes} (hline : IsSingleLine src) (hfaults : (lex src).faults = [])
include hline hfaults

/-- A byte of the code of a line without faults is blank or stands in a token. -/
theorem blank_or_token {x : Nat} (hx : x < (splitLineComment src).1.length) {b : UInt8}
    (hb : src[x]? = some b) :
    Ascii.isBlank b = true ∨ ∃ t ∈ (lex src).good, t.start ≤ x ∧ x < t.stop := by
  have hlong : x < src.length := (List.getElem?_eq_some_iff.mp hb).1
  obtain ⟨s, hs, hstart, hstop⟩ := exists_spot 0 (Nat.zero_le x)
    (by rwa [Nat.zero_add, glue_pieces src])
  have hin := in_of_mem_spotsOf hs
  obtain ⟨ps, qs, hpieces, hat, -⟩ := mem_spots hs
  rw [Nat.zero_add] at hat
  have hnone : s.fault? = none := by
    rw [lex_eq] at hfaults
    exact List.filterMap_eq_nil_iff.mp hfaults s hs
  cases hk : s.piece.kind with
  | token k =>
    have hgood : s.good? = some ⟨k, s.piece.text, s.start, s.line⟩ := by simp [Spot.good?, hk]
    refine .inr ⟨⟨k, s.piece.text, s.start, s.line⟩, ?_, hstart, hstop⟩
    rw [good_eq]
    exact List.mem_filterMap.mpr ⟨s, hs, hgood⟩
  | blank =>
    obtain ⟨c, htext, hc⟩ := text_of_blank hin.piece hk
    have hsrc : src = glue ps ++ c :: glue qs := by
      rw [← glue_pieces src, hpieces, glue_append, glue_cons, htext]
      rfl
    have hsame : x = (glue ps).length := by
      unfold Spot.stop at hstop
      rw [htext, List.length_singleton] at hstop
      omega
    rw [hsrc, hsame, List.getElem?_append_right (Nat.le_refl _), Nat.sub_self] at hb
    exact .inl (Option.some.inj hb ▸ hc)
  | comment k =>
    -- A scan is outside literals behind the pieces in front of the comment.
    have hcalm := calm_front hline hpieces (by simp [hk])
    have hquote : Quote.run {} (glue ps) = {} := CalmText.quote_run ⟨ps, hcalm, rfl, rfl⟩
    obtain ⟨c, rest, n, hsrc, hclass, -, -⟩ := pieces_split hpieces
    have hsingle : IsSingleLine (c :: rest) :=
      hline.of_infix ⟨glue ps, [], by rw [List.append_nil, ← hsrc]⟩
    have hcomment := startsComment_of_comment hsingle (by rw [hclass]; exact hk)
    have hle := length_code_le (q := {}) (u := glue ps) (by rwa [hquote])
    rw [← hsrc] at hle
    unfold splitLineComment at hx
    omega
  | openComment k => simp [Spot.fault?, hk] at hnone
  | bad f => simp [Spot.fault?, hk] at hnone

/-- What no token takes of the code of a line without faults is blank. -/
theorem blank_between {i j : Nat} (hj : j ≤ (splitLineComment src).1.length)
    (hout : ∀ t ∈ (lex src).good, t.stop ≤ i ∨ j ≤ t.start) :
    AllBlank (Bytes.slice src i j) := by
  intro b hb
  obtain ⟨n, hn, hget⟩ := List.mem_iff_getElem.mp hb
  rw [Bytes.slice, List.length_take] at hn
  have hat : src[i + n]? = some b := by
    rw [← hget, ← List.getElem?_eq_getElem, Bytes.slice, List.getElem?_take_of_lt (by omega),
      List.getElem?_drop]
  rcases blank_or_token hline hfaults (by omega) hat with hblank | ⟨t, ht, hstart, hstop⟩
  · exact hblank
  · have := hout t ht
    omega

/-- The parts that the tokens of a line spell make up its code, with blanks between them. -/
theorem strung_line {ps : List Bytes} (h : Spells src (lex src).good ps) :
    Strung AllBlank ps (splitLineComment src).1 := by
  have hin : ∀ t ∈ (lex src).good, t.stop ≤ (splitLineComment src).1.length := by
    intro t ht
    obtain ⟨ps, p, qs, hpieces, hat⟩ := (lex_tokens src).1 t ht
    rw [← List.append_nil src] at hpieces
    have hprefix := code_prefix hline hpieces hat.kind (by
      rw [← hat.stop]
      exact (run_good src).bound t ht)
    rw [hat.stop]
    exact hprefix.length_le
  have hgap {j k : Nat} (_ : 0 ≤ j) (_ : j ≤ k) (hk : k ≤ (splitLineComment src).1.length)
      (hout : ∀ t ∈ (lex src).good, t.stop ≤ j ∨ k ≤ t.start) : AllBlank (Bytes.slice src j k) :=
    blank_between hline hfaults hk hout
  have hstrung := h.strung List.infix_rfl (fun t _ => Nat.zero_le t.start) hin (Nat.zero_le _) hgap
  have hcode : (splitLineComment src).1 <+: src :=
    ⟨(splitLineComment src).2, splitLineComment_append src⟩
  rwa [Bytes.slice, List.drop_zero, Nat.sub_zero, ← List.prefix_iff_eq_take.mp hcode] at hstrung

end Faultless

/-- Tokens of a line that opens no block comment stand in a piece of it. -/
theorem textOf_single {line : Bytes} (hline : IsSingleLine line) {us : List Token}
    (hus : us <:+: (lex line).good) : IsSingleLine (Token.textOf line us) := by
  have hrun := run_good line
  have hsub := textOf_infix (i := 0) (e := line.length) (hrun.sublist hus.sublist)
    fun t ht => ⟨Nat.zero_le _, hrun.bound t (hus.subset ht)⟩
  rw [Bytes.slice, List.drop_zero, Nat.sub_zero, List.take_length] at hsub
  exact hline.of_infix hsub

/-! ## The parts of a constant on its line -/

/-- A text that is balanced between its first and its last byte. -/
def IsEnclosed (s : Bytes) : Prop := ∃ o t c, s = o :: (t ++ [c]) ∧ BalancedText t

/-- The text of a value: it starts and ends with something visible, and from a bracket on it is
balanced up to its last byte. -/
structure IsValueText (s : Bytes) : Prop where
  calm : ∃ ks, CalmText ks s
  solid : Solid s
  last : ∀ b ∈ s.getLast?, Ascii.isSeparator b = false
  enclosed : ∀ b ∈ s.head?, b = Ascii.lbracket ∨ b = Ascii.lbrace → IsEnclosed s

section Value

variable {src : Bytes} {ts : List Token} (hpart : ts <:+: (lex src).good)
include hpart

/-- A token that starts like a bracket is one. -/
theorem kind_of_bracket {t : Token} {us : List Token} (hts : ts = t :: us) {b : UInt8}
    (hb : (Token.textOf src ts).head? = some b) (hbracket : b = Ascii.lbracket ∨ b = Ascii.lbrace) :
    ∃ o, t.kind = .mark o ∧ (o = .lbracket ∨ o = .lbrace) := by
  subst hts
  obtain ⟨v, htext, -⟩ := textOf_cons hpart
  obtain ⟨ps, p, qs, hpieces, hat⟩ := (lex_tokens src).1 t (hpart.subset List.mem_cons_self)
  obtain ⟨c, rest, n, -, hclass, hp, -⟩ := Lexer.pieces_split hpieces
  rw [htext, hat.text, hp] at hb
  obtain rfl := Option.some.inj hb
  have hkind := (Prod.mk.inj hclass).1
  rw [hat.kind] at hkind
  rcases hbracket with rfl | rfl
  · exact ⟨.lbracket, (Lexer.PieceKind.token.inj hkind).symm, .inl rfl⟩
  · exact ⟨.lbrace, (Lexer.PieceKind.token.inj hkind).symm, .inr rfl⟩

/-- The text of tokens starts and ends with something visible. -/
theorem textOf_solid (hline : IsSingleLine (Token.textOf src ts)) (hts : ts ≠ []) :
    Solid (Token.textOf src ts) := by
  obtain ⟨t, us, rfl⟩ := List.exists_cons_of_ne_nil hts
  constructor
  · obtain ⟨v, htext, -⟩ := textOf_cons hpart
    obtain ⟨ps, p, qs, hpieces, hat⟩ := (lex_tokens src).1 t (hpart.subset List.mem_cons_self)
    have hmem : p ∈ Lexer.pieces src := by simp [hpieces]
    obtain ⟨b, r, hp, hb⟩ := Lexer.head_of_token hmem hat.kind
    exact ⟨b, r ++ v, by rw [htext, hat.text, hp]; rfl, hb⟩
  · obtain ⟨p, hp, -, hkind, hlast⟩ := textOf_last hpart hline
      (List.getLast?_eq_some_getLast (List.cons_ne_nil t us))
    obtain ⟨b, hb, hvisible⟩ := Lexer.last_token hp hkind
    rw [hb] at hlast
    obtain ⟨v, htext⟩ := List.getLast?_eq_some_iff.mp hlast
    exact ⟨v, b, htext, hvisible⟩

theorem isValueText_of_value (hline : IsSingleLine (Token.textOf src ts)) (h : ts ∈ Phrase.value) :
    IsValueText (Token.textOf src ts) := by
  have hts : ts ≠ [] := Grammar.ne_nil_of_value h
  refine ⟨⟨_, textOf_calm hpart hline⟩, textOf_solid hpart hline hts, ?_, fun b hb hbracket => ?_⟩
  · obtain ⟨z, hz, hfinal⟩ := Phrase.value_final h
    exact fun b hb => Ascii.isSeparator_of_isFinal (textOf_final hpart hline hz hfinal b hb)
  · obtain ⟨t, us, rfl⟩ := List.exists_cons_of_ne_nil hts
    obtain ⟨o, ht, ho⟩ := kind_of_bracket hpart rfl hb hbracket
    obtain ⟨us, r, c, rfl, hr, hc, hbalanced⟩ := Phrase.value_enclosed h ht ho
    obtain ⟨v, htext, hcalm⟩ := textOf_enclosed hpart hline ht hr
      (by rcases ho with rfl | rfl <;> rfl) (by rcases hc with rfl | rfl <;> rfl)
      (by rcases ho with rfl | rfl <;> rcases hc with rfl | rfl <;> decide)
    exact ⟨o.byte, v, c.byte, htext, _, hcalm, hbalanced⟩

end Value

/-- The parts of a constant that is alone on a line. -/
structure Decl.ConstSpelled (d : Decl) (code sep : Bytes) : Prop where
  type : IsType d.type ∧ Solid d.type
  name : IsWord d.name
  value : IsValueText d.value
  separator : IsTerminator sep
  strung : Strung AllBlank
    [utf8 "const", d.type, d.name, [Ascii.equals], d.value, sep] code

/-- A line that is read as one constant holds its parts. -/
theorem Decl.spelled_on_line {uri line : Bytes} (hline : IsSingleLine line) {d : Decl}
    (hbody : (Document.parse uri line).body = [d])
    (hnone : (Document.parse uri line).diagnostics = []) (hd : d.kind = .const) :
    ∃ sep, d.ConstSpelled (splitLineComment line).1 sep := by
  obtain ⟨word, sep, hspells, hsep⟩ := constFrom_of_body hbody hnone hd
  have hfaults := ((diagnostics_eq_nil_iff uri line).mp hnone).1
  have hpart : (lex line).good <:+: (lex line).good := List.infix_rfl
  have hsingle {us : List Token} (hus : us <:+: (lex line).good) := textOf_single hline hus
  have hstrung := strung_line hline hfaults hspells.spells
  have hphrase {l : Language Token} {p : Bytes} (hp : (l, p) ∈ d.constPhrases word sep) :=
    hspells.exists_phrase hp
  obtain ⟨us, hus, hin₁, hword⟩ := hphrase (l := keyword .const) (p := word)
    (by simp [constPhrases])
  obtain rfl : word = utf8 "const" :=
    hword.trans (Lexer.text_of_keyword (Phrase.word_of_one (hin₁.trans hpart) rfl hus).2)
  obtain ⟨us, hus, hin₂, hname⟩ := hphrase (l := one .identifier) (p := d.name)
    (by simp [constPhrases])
  obtain ⟨us', hus', hin₃, hvalue⟩ := hphrase (l := Phrase.value) (p := d.value)
    (by simp [constPhrases])
  obtain ⟨vs, hvs, hin₄, htype⟩ := hphrase (l := Phrase.type) (p := d.type) (by simp [constPhrases])
  refine ⟨sep, ?_, ?_, ?_, hsep, hstrung⟩
  · have hne : vs ≠ [] := by
      obtain ⟨_, ⟨t, rfl, -⟩, us, -, rfl⟩ := hvs
      exact List.cons_ne_nil t us
    rw [htype]
    exact ⟨Phrase.isType_of_type (hin₄.trans hpart) (hsingle hin₄) hvs,
      textOf_solid (hin₄.trans hpart) (hsingle hin₄) hne⟩
  · rw [hname]
    exact (Phrase.word_of_one (hin₂.trans hpart) rfl hus).1
  · rw [hvalue]
    exact isValueText_of_value (hin₃.trans hpart) (hsingle hin₃) hus'

end ThriftLayout
