import ThriftLayout.Layout.Record
import ThriftLayout.Proofs.Document.PhraseTexts
import ThriftLayout.Proofs.Layout.Respacing

/-!
# The parts of a member on its line

The parts of a field or an enum member stand on its line one after the other, with gaps between them
and around them (`Strung`). The gaps may hold other members, or bytes that no token has. If the
record of the member covers the code of its line, all that is visible in the code is in the parts,
and the gaps are blank.

Results:

* `Spells.strung`: the parts of a member in the source.
* `Strung.blank`: parts that hold all that is visible.
* `FieldRecord.visible_of_covers`, `MemberRecord.visible_of_covers`: what a record that covers a
  text holds.
-/
namespace ThriftLayout

/-- How parts stand in a text, one after the other. A part that is a word is not the start of a
longer word. -/
inductive Strung (Gap : Bytes → Prop) : List Bytes → Bytes → Prop where
  | nil {g : Bytes} (hg : Gap g) : Strung Gap [] g
  | cons {g p s : Bytes} {ps : List Bytes} (hg : Gap g)
      (hword : IsWord p → ∀ b ∈ s.head?, Ascii.isIdentPart b = false) (h : Strung Gap ps s) :
      Strung Gap (p :: ps) (g ++ (p ++ s))

/-- How many bytes of a text are not blank. -/
def visibleLength (s : Bytes) : Nat := s.countP (!Ascii.isBlank ·)

/-! ## From tokens to parts -/

theorem Bytes.slice_trans {s : Bytes} {i j k : Nat} (hij : i ≤ j) (hjk : j ≤ k) :
    slice s i k = slice s i j ++ slice s j k := by
  have hlength : k - i = (j - i) + (k - j) := by omega
  have hdrop : (s.drop i).drop (j - i) = s.drop j := by
    rw [List.drop_drop]
    congr 1
    omega
  rw [slice, hlength, List.take_add, hdrop]
  rfl

section Tokens

variable {src : Bytes} {ts : List Token}

/-- Behind tokens whose text is a word stands no byte of a word. -/
theorem textOf_word {us : List Token} (hpart : us <:+: (lex src).good) {u : Token}
    (hu : us.getLast? = some u) (hword : IsWord (Token.textOf src us)) (e : Nat) :
    ∀ b ∈ (Bytes.slice src u.stop e).head?, Ascii.isIdentPart b = false := by
  obtain ⟨pre, post, hgood⟩ := hpart
  rw [List.append_assoc] at hgood
  obtain ⟨ps, ms, p, qs, hpieces, hkind, hstop, htext, -⟩ := exists_textOf hgood.symm hu
  have hrun := Lexer.pieces_run hpieces hkind
  rw [← htext, Lexer.pieces_of_word hword] at hrun
  obtain ⟨rfl, hp⟩ := (List.append_eq_singleton_iff.mp hrun.symm).resolve_right (by simp)
  have hkinds : u.kind = Lexer.wordKind (Token.textOf src us) := by
    rw [(List.cons.inj hp).1] at hkind
    exact (Lexer.PieceKind.token.inj hkind).symm
  obtain ⟨-, -, hbehind⟩ :=
    Lexer.word_of_token hpieces hkind (hkinds ▸ Lexer.isWord_wordKind _)
  have hsrc : src = Lexer.glue (ps ++ [p]) ++ Lexer.glue qs := by
    rw [← Lexer.glue_append, ← Lexer.glue_pieces src, hpieces]
    simp
  have hdrop : src.drop u.stop = Lexer.glue qs := by
    rw [hstop]
    conv => lhs; rw [hsrc]
    exact List.drop_left
  intro b hb
  rw [Bytes.slice, hdrop, List.head?_take] at hb
  split at hb
  · cases hb
  · exact hbehind b hb

/-- The parts that are spelled by tokens stand in the source from in front of the tokens to behind
them, and between them are gaps that no token of them reaches into. -/
theorem Spells.strung {Gap : Bytes → Prop} {ps : List Bytes} (h : Spells src ts ps)
    (hpart : ts <:+: (lex src).good) {i e : Nat} (hi : ∀ t ∈ ts, i ≤ t.start)
    (he : ∀ t ∈ ts, t.stop ≤ e) (hie : i ≤ e)
    (hgap : ∀ {j k : Nat}, i ≤ j → j ≤ k → k ≤ e → (∀ t ∈ ts, t.stop ≤ j ∨ k ≤ t.start) →
      Gap (Bytes.slice src j k)) :
    Strung Gap ps (Bytes.slice src i e) := by
  induction h generalizing i with
  | nil => exact .nil (hgap (Nat.le_refl i) hie (Nat.le_refl e) nofun)
  | @cons us ts ps _ ih =>
    have hrest : ts <:+: (lex src).good := (List.suffix_append us ts).isInfix.trans hpart
    have hfront : us <:+: (lex src).good := (List.prefix_append us ts).isInfix.trans hpart
    rw [List.forall_mem_append] at hi he
    by_cases hus : us = []
    · subst hus
      have hnone : Gap [] := by
        have hslice := hgap (Nat.le_refl i) (Nat.le_refl i) hie fun t ht => .inr (hi.2 t ht)
        rwa [Bytes.slice, Nat.sub_self, List.take_zero] at hslice
      exact Strung.cons (g := []) hnone (fun hword => absurd rfl hword.ne_nil)
        (ih hrest hi.2 he.2 hie hgap)
    obtain ⟨a, z, ha, hz, hamem, hzmem⟩ := exists_ends hus
    have hrun := (run_good src).sublist hpart.sublist
    have hinside := (run_good src).sublist hfront.sublist
    have hnonempty := hrun.nonempty a (List.mem_append_left ts hamem)
    have hlast := hinside.le_last hz hamem
    have hbehind : ∀ t ∈ ts, z.stop ≤ t.start :=
      fun t ht => (List.pairwise_append.mp hrun.ordered).2.2 z hzmem t ht
    have hstart := hi.1 a hamem
    have hstop := he.1 z hzmem
    have htext : Token.textOf src us = Bytes.slice src a.start z.stop := by
      rw [Token.textOf, ha, hz]
    have hbefore : Gap (Bytes.slice src i a.start) :=
      hgap (Nat.le_refl i) hstart (by omega) (List.forall_mem_append.mpr
        ⟨fun t ht => .inr (hinside.first_le ha ht), fun t ht => .inr (by
          have := hbehind t ht
          omega)⟩)
    rw [Bytes.slice_trans hstart (by omega),
      Bytes.slice_trans (s := src) (j := z.stop) (by omega) hstop, ← htext]
    refine .cons hbefore (fun hword => textOf_word hfront hz hword e)
      (ih hrest hbehind he.2 hstop fun {j k} hj hjk hk hout => ?_)
    refine hgap (by omega) hjk hk (List.forall_mem_append.mpr ⟨fun t ht => .inl ?_, hout⟩)
    exact Nat.le_trans (hinside.le_last hz ht) hj

end Tokens

/-! ## Parts that hold all that is visible -/

section Visible

variable {s t : Bytes}

theorem visibleLength_append (s t : Bytes) :
    visibleLength (s ++ t) = visibleLength s + visibleLength t := List.countP_append

theorem visibleLength_of_blank (h : AllBlank s) : visibleLength s = 0 :=
  List.countP_eq_zero.mpr fun b hb => by simp [h b hb]

theorem allBlank_of_visibleLength (h : visibleLength s = 0) : AllBlank s := fun b hb => by
  simpa using List.countP_eq_zero.mp h b hb

theorem length_squash (h : AllAscii s) : (Blank.squash s).length = visibleLength s := by
  rw [Blank.squash_ascii h, visibleLength, List.countP_eq_length_filter]

theorem visibleLength_trim (h : AllAscii s) : visibleLength (Blank.trim s) = visibleLength s := by
  obtain ⟨g, g', hg, hg', hs, -⟩ := Blank.exists_between h
  conv => rhs; rw [hs]
  rw [visibleLength_append, visibleLength_append, visibleLength_of_blank hg,
    visibleLength_of_blank hg', Nat.zero_add, Nat.add_zero]

theorem Respaced.visibleLength {q : Quote} (h : Respaced q s t) :
    visibleLength t = visibleLength s := by
  have hskip {b : UInt8} {q : Quote} (hb : q.skips b = true) (s : Bytes) :
      ThriftLayout.visibleLength (b :: s) = ThriftLayout.visibleLength s :=
    List.countP_cons_of_neg (by simp [(Quote.skips_iff.mp hb).2])
  induction h with
  | nil => rfl
  | keep b _ ih =>
    rw [← List.singleton_append, visibleLength_append, ih, ← visibleLength_append]
    rfl
  | drop hb _ ih => rw [ih, hskip hb]
  | swap hb _ ih =>
    rw [hskip hb, ← ih]
    exact List.countP_cons_of_neg (by decide)

theorem visibleLength_tightenType (h : AllAscii s) :
    visibleLength (tightenType s) = visibleLength s :=
  (tightenType_go_respaced {} 0 (Blank.trim s)).1.visibleLength.trans (visibleLength_trim h)

theorem tightenType_ascii (h : AllAscii s) : AllAscii (tightenType s) := by
  intro b hb
  rcases (tightenType_go_respaced {} 0 (Blank.trim s)).1.mem hb with rfl | hmem
  · decide
  · exact h b (Blank.mem_of_mem_trim hmem)

end Visible

namespace Strung

variable {Gap : Bytes → Prop} {ps : List Bytes} {s : Bytes}

theorem visible_le (h : Strung Gap ps s) : (ps.map visibleLength).sum ≤ visibleLength s := by
  induction h with
  | nil => exact Nat.zero_le _
  | @cons g p s ps _ _ _ ih =>
    rw [List.map_cons, List.sum_cons, visibleLength_append, visibleLength_append]
    omega

theorem infix_of_mem (h : Strung Gap ps s) {p : Bytes} (hp : p ∈ ps) : p <:+: s := by
  induction h with
  | nil => exact absurd hp List.not_mem_nil
  | @cons g q s _ _ _ _ ih =>
    rcases List.mem_cons.mp hp with rfl | hp
    · exact ⟨g, s, List.append_assoc g p s⟩
    · exact (ih hp).trans ⟨g ++ q, [], by simp⟩

/-- If the parts hold all that is visible in a text, the gaps between them are blank. -/
theorem blank (h : Strung Gap ps s) (hall : visibleLength s = (ps.map visibleLength).sum) :
    Strung AllBlank ps s := by
  induction h with
  | nil => exact .nil (allBlank_of_visibleLength hall)
  | @cons g p s ps _ hword h ih =>
    have hle := h.visible_le
    rw [List.map_cons, List.sum_cons, visibleLength_append, visibleLength_append] at hall
    exact .cons (allBlank_of_visibleLength (by omega)) hword (ih (by omega))

end Strung

/-! ## Records that cover their line -/

theorem trim_clause {s : Bytes} (hs : AllAscii s) (h : s = [] ∨ IsClause s) : Blank.trim s = s := by
  rcases h with rfl | h
  · exact Blank.trim_nil
  · exact Blank.trim_snug hs h.snug

theorem visibleLength_of_squash {s t : Bytes} (hs : AllAscii s) (ht : AllAscii t)
    (h : Blank.squash s = Blank.squash t) : visibleLength s = visibleLength t := by
  rw [← length_squash hs, h, length_squash ht]

/-- A record that covers a text holds all that is visible in it. -/
theorem FieldRecord.visible_of_covers {line code : Bytes} {f : Field} (hf : f.Spelled)
    (hparts : ∀ p ∈ f.parts, AllAscii p) (hcode : AllAscii code)
    (h : (ofDecl line f).covers code = true) :
    visibleLength code = (f.parts.map visibleLength).sum := by
  have hpart := hparts
  simp only [Field.parts, List.forall_mem_cons] at hpart
  obtain ⟨hid, hcolon, hqualifier, htype, hname, hequals, hdefault, hannot, hseparator, -⟩ := hpart
  have hflat : (ofDecl line f).flat = f.id ++ ((if f.id = [] then [] else [Ascii.colon]) ++
      (f.qualifier ++ (tightenType f.type ++ (f.name ++
        ((if f.default = [] then [] else [Ascii.equals]) ++ (f.default ++
          (f.annot ++ f.separator))))))) := by
    simp only [flat, ofDecl, Blank.trim_snug hdefault hf.default.2.1, trim_clause hannot hf.annot,
      List.isEmpty_iff]
    by_cases hid : f.id = [] <;> by_cases hdefault : f.default = [] <;> simp [hid, hdefault]
  have hascii : AllAscii (ofDecl line f).flat := by
    rw [hflat]
    simp only [AllAscii, List.forall_mem_append]
    exact ⟨hid, hcolon, hqualifier, tightenType_ascii htype, hname, hequals, hdefault, hannot,
      hseparator⟩
  rw [← visibleLength_of_squash hascii hcode (eq_of_beq h), hflat]
  simp only [visibleLength_append, visibleLength_tightenType htype, Field.parts, List.map_cons,
    List.map_nil, List.sum_cons, List.sum_nil, Nat.add_zero]

theorem MemberRecord.visible_of_covers {line code : Bytes} {m : Member} (hm : m.Spelled)
    (hparts : ∀ p ∈ m.parts, AllAscii p) (hcode : AllAscii code)
    (h : (ofDecl line m).covers code = true) :
    visibleLength code = (m.parts.map visibleLength).sum := by
  have hpart := hparts
  simp only [Member.parts, List.forall_mem_cons] at hpart
  obtain ⟨hname, hequals, hvalue, hannot, hseparator, -⟩ := hpart
  have hflat : (ofDecl line m).flat = m.name ++ ((if m.value = [] then [] else [Ascii.equals]) ++
      (m.value ++ (m.annot ++ m.separator))) := by
    simp only [flat, ofDecl, Blank.trim_snug hvalue hm.value.2.1, trim_clause hannot hm.annot,
      List.isEmpty_iff]
    by_cases hvalue : m.value = [] <;> simp [hvalue]
  have hascii : AllAscii (ofDecl line m).flat := by
    rw [hflat]
    simp only [AllAscii, List.forall_mem_append]
    exact ⟨hname, hequals, hvalue, hannot, hseparator⟩
  rw [← visibleLength_of_squash hascii hcode (eq_of_beq h), hflat]
  simp only [visibleLength_append, Member.parts, List.map_cons, List.map_nil, List.sum_cons,
    List.sum_nil, Nat.add_zero]

end ThriftLayout
