import ThriftLayout.Proofs.Layout.CalmPieces
import ThriftLayout.Proofs.Token.Words

/-!
# Texts of calm pieces

A text that is put together from calm pieces is known to a scan by the kinds of its tokens: they
tell how deep the scan is nested behind it, and where a mark or a blank stands outside literals, the
text falls apart into two such texts.

Results:

* `CalmText.run`: the depth behind a text.
* `CalmText.cut_mark`, `CalmText.cut_blank`: what stands on the two sides of a byte.
* `Lexer.Piece.Calm.last`: how a piece that may end a member ends.
* `splitLineComment_calm`: calm pieces in front of a text belong to its code.
-/
namespace ThriftLayout

/-- Where the place of a byte lies: behind the first of two lists, or in it. -/
theorem append_eq_append_cons {α : Type} {a c u v : List α} {x : α} :
    a ++ c = u ++ x :: v ↔
      (∃ w, u = a ++ w ∧ c = w ++ x :: v) ∨ ∃ w, a = u ++ x :: w ∧ v = w ++ c := by
  rw [List.append_eq_append_iff]
  constructor
  · rintro (⟨w, hu, hc⟩ | ⟨w, ha, hrest⟩)
    · exact .inl ⟨w, hu, hc⟩
    · cases w with
      | nil => exact .inl ⟨[], by rw [ha, List.append_nil, List.append_nil], hrest.symm⟩
      | cons y w =>
        obtain ⟨rfl, rfl⟩ := List.cons.inj hrest
        exact .inr ⟨w, ha, rfl⟩
  · rintro (⟨w, hu, hc⟩ | ⟨w, ha, hv⟩)
    · exact .inl ⟨w, hu, hc⟩
    · exact .inr ⟨x :: w, ha, by rw [hv, List.cons_append]⟩

theorem IsWord.of_isIdentifier {s : Bytes} (h : isIdentifier s = true) : IsWord s := by
  cases s with
  | nil => exact absurd h Bool.false_ne_true
  | cons b t =>
    obtain ⟨hb, ht⟩ := Bool.and_eq_true_iff.mp h
    exact ⟨b, t, rfl, hb, List.all_eq_true.mp ht⟩

/-! ## Scans over calm pieces -/

namespace Depth

def stepKind (d : Depth) : TokenKind → Depth
  | .mark m => d.step m.byte
  | _ => d

def after (d : Depth) (ks : List TokenKind) : Depth := ks.foldl stepKind d

theorem after_append (d : Depth) (ks ls : List TokenKind) :
    d.after (ks ++ ls) = (d.after ks).after ls := List.foldl_append

theorem stepKind_of_not_mark {k : TokenKind} (h : ∀ m, k ≠ .mark m) (d : Depth) :
    d.stepKind k = d := by
  cases k with
  | mark m => exact absurd rfl (h m)
  | _ => rfl

/-- A byte that is no bracket keeps the depth. -/
theorem step_of_not_bracket {b : UInt8} (h : b ∉ [Ascii.langle, Ascii.rangle, Ascii.lparen,
    Ascii.rparen, Ascii.lbrace, Ascii.rbrace, Ascii.lbracket, Ascii.rbracket]) (d : Depth) :
    d.step b = d := by
  unfold step
  split <;> first | rfl | exact absurd (by decide) h

end Depth

theorem Ascii.not_bracket_of_isSilent {b : UInt8} (h : isSilent b = true) : b ∉ [langle, rangle,
    lparen, rparen, lbrace, rbrace, lbracket, rbracket] := by
  have hloud : ∀ x ∈ [langle, rangle, lparen, rparen, lbrace, rbrace, lbracket, rbracket],
      x ∈ loud := by decide +kernel
  exact fun hmem => (isSilent_iff.mp h).2.2 (hloud b hmem)

theorem Ascii.isNeutral_of_isBlank {b : UInt8} (h : isBlank b = true) : isNeutral b = true := by
  rw [isNeutral, h, Bool.true_or]

theorem Mark.isQuote_byte (m : Mark) : Quote.isQuote m.byte = false := by cases m <;> rfl

theorem Mark.isBlank_byte (m : Mark) : Ascii.isBlank m.byte = false := by cases m <;> rfl

theorem Mark.byte_injective {m n : Mark} (h : m.byte = n.byte) : m = n := by
  revert h
  cases m <;> cases n <;> decide

namespace Scan

theorem run_inside {q : Quote} {s : Bytes} (h : EachByte (fun u x => (q.run u).holds x = true) s)
    (d : Depth) : Scan.run ⟨q, d⟩ s = ⟨q.run s, d⟩ := by
  induction s generalizing q with
  | nil => rfl
  | cons b s ih =>
    rw [EachByte.cons_iff] at h
    have hstep : Scan.step ⟨q, d⟩ b = ⟨q.step b, d⟩ := if_pos h.1
    show Scan.run (Scan.step ⟨q, d⟩ b) s = _
    rw [hstep]
    exact ih h.2

theorem step_outside {b : UInt8} (hb : Quote.isQuote b = false) (d : Depth) :
    Scan.step ⟨{}, d⟩ b = ⟨{}, d.step b⟩ :=
  if_neg (by rw [holds, Quote.holds_start, hb]; exact Bool.false_ne_true)

theorem run_silent {s : Bytes} (h : ∀ b ∈ s, Ascii.isSilent b = true) (d : Depth) :
    Scan.run ⟨{}, d⟩ s = ⟨{}, d⟩ := by
  induction s with
  | nil => rfl
  | cons b s ih =>
    rw [List.forall_mem_cons] at h
    show Scan.run (Scan.step ⟨{}, d⟩ b) s = _
    rw [step_outside ((Ascii.isSilent_iff.mp h.1).2.1),
      Depth.step_of_not_bracket (Ascii.not_bracket_of_isSilent h.1)]
    exact ih h.2

end Scan

namespace Lexer

def kinds (ps : List Piece) : List TokenKind := (ps.filterMap Piece.lexeme?).map Prod.fst

theorem kinds_append (ps qs : List Piece) : kinds (ps ++ qs) = kinds ps ++ kinds qs := by
  rw [kinds, List.filterMap_append, List.map_append]
  rfl

theorem kinds_cons (p : Piece) (ps : List Piece) : kinds (p :: ps) = kinds [p] ++ kinds ps :=
  kinds_append [p] ps

/-- The depth behind a calm piece is that behind its token. -/
theorem Piece.Calm.run {p : Piece} (h : p.Calm) (d : Depth) :
    Scan.run ⟨{}, d⟩ p.text = ⟨{}, d.after (kinds [p])⟩ := by
  cases h with
  | @blank b hb =>
    have hneutral := Ascii.isNeutral_of_isBlank hb
    show Scan.step ⟨{}, d⟩ b = _
    rw [Scan.step_outside (Quote.isQuote_eq_false hneutral), Scan.depth_step_neutral hneutral]
    rfl
  | mark m => exact Scan.step_outside m.isQuote_byte d
  | literal hs =>
    show Scan.run ⟨{}, d⟩ _ = ⟨{}, d⟩
    rw [Scan.run_inside hs.inside, hs.run]
  | @silent k s hk hs =>
    rw [Scan.run_silent hs]
    cases k with
    | token k =>
      show _ = Scan.mk {} (d.stepKind k)
      rw [Depth.stepKind_of_not_mark fun m hm => hk m (congrArg _ hm)]
    | blank | comment | openComment | bad => rfl

theorem Piece.Calm.quote_run {p : Piece} (h : p.Calm) : Quote.run {} p.text = {} := by
  have hrun := Scan.run_quote ⟨{}, {}⟩ p.text
  rw [h.run] at hrun
  exact hrun.symm

/-- A byte outside literals that is not silent is a piece of its own, a blank or a mark. -/
theorem Piece.Calm.cut {p : Piece} (h : p.Calm) {u v : Bytes} {b : UInt8}
    (hp : p.text = u ++ b :: v) (hout : (Quote.run {} u).holds b = false)
    (hb : Ascii.isSilent b = false) :
    u = [] ∧ v = [] ∧ (Ascii.isBlank b = true ∧ kinds [p] = [] ∨
      ∃ m, m.byte = b ∧ kinds [p] = [.mark m]) := by
  cases h with
  | blank hblank =>
    obtain ⟨rfl, hsingle⟩ | ⟨-, hnil⟩ := List.append_eq_singleton_iff.mp hp.symm
    · obtain ⟨rfl, rfl⟩ := List.cons.inj hsingle
      exact ⟨rfl, rfl, .inl ⟨hblank, rfl⟩⟩
    · exact absurd hnil (List.cons_ne_nil b v)
  | mark m =>
    obtain ⟨rfl, hsingle⟩ | ⟨-, hnil⟩ := List.append_eq_singleton_iff.mp hp.symm
    · obtain ⟨rfl, rfl⟩ := List.cons.inj hsingle
      exact ⟨rfl, rfl, .inr ⟨m, rfl, rfl⟩⟩
    · exact absurd hnil (List.cons_ne_nil b v)
  | literal hs => exact absurd (hout.symm.trans (hs.inside u b v hp)) Bool.false_ne_true
  | silent hk hs =>
    have hmem : b ∈ u ++ b :: v := List.mem_append_right u List.mem_cons_self
    rw [← hp] at hmem
    exact absurd (hb.symm.trans (hs b hmem)) Bool.false_ne_true

end Lexer

/-! ## Texts of calm pieces -/

open Lexer (Piece kinds glue)

/-- A text of calm pieces whose tokens are of these kinds. -/
def CalmText (ks : List TokenKind) (s : Bytes) : Prop :=
  ∃ ps : List Piece, (∀ p ∈ ps, p.Calm) ∧ kinds ps = ks ∧ glue ps = s

namespace CalmText

variable {ks ls : List TokenKind} {s t u v : Bytes} {b : UInt8}

theorem nil : CalmText [] [] := ⟨[], nofun, rfl, rfl⟩

theorem append (hs : CalmText ks s) (ht : CalmText ls t) : CalmText (ks ++ ls) (s ++ t) := by
  obtain ⟨ps, hps, rfl, rfl⟩ := hs
  obtain ⟨qs, hqs, rfl, rfl⟩ := ht
  exact ⟨ps ++ qs, List.forall_mem_append.mpr ⟨hps, hqs⟩, Lexer.kinds_append ps qs,
    Lexer.glue_append ps qs⟩

theorem of_blanks (h : ∀ b ∈ s, Ascii.isBlank b = true) : CalmText [] s := by
  induction s with
  | nil => exact nil
  | cons b s ih =>
    rw [List.forall_mem_cons] at h
    have hfirst : CalmText [] [b] :=
      ⟨[⟨.blank, [b]⟩], List.forall_mem_singleton.mpr (.blank h.1), rfl, rfl⟩
    exact hfirst.append (ih h.2)

theorem of_mark (m : Mark) : CalmText [.mark m] [m.byte] :=
  ⟨[⟨.token (.mark m), [m.byte]⟩], List.forall_mem_singleton.mpr (.mark m), rfl, rfl⟩

theorem run (h : CalmText ks s) (d : Depth) : Scan.run ⟨{}, d⟩ s = ⟨{}, d.after ks⟩ := by
  obtain ⟨ps, hps, rfl, rfl⟩ := h
  induction ps generalizing d with
  | nil => rfl
  | cons p ps ih =>
    rw [List.forall_mem_cons] at hps
    rw [Lexer.glue_cons, Lexer.kinds_cons, Scan.run_append, hps.1.run d, ih _ hps.2,
      Depth.after_append]

theorem quote_run (h : CalmText ks s) : Quote.run {} s = {} := by
  have hrun := Scan.run_quote ⟨{}, {}⟩ s
  rw [h.run] at hrun
  exact hrun.symm

/-- Calm pieces cut at a byte outside literals that is not silent. -/
theorem cut (h : CalmText ks (u ++ b :: v)) (hout : (Quote.run {} u).holds b = false)
    (hb : Ascii.isSilent b = false) : ∃ ks₁ mid ks₂, ks = ks₁ ++ (mid ++ ks₂) ∧
      CalmText ks₁ u ∧ CalmText ks₂ v ∧
      (Ascii.isBlank b = true ∧ mid = [] ∨ ∃ m, m.byte = b ∧ mid = [.mark m]) := by
  obtain ⟨ps, hps, rfl, hglue⟩ := h
  induction ps generalizing u with
  | nil => exact absurd hglue.symm (by simp [Lexer.glue_nil])
  | cons p ps ih =>
    rw [List.forall_mem_cons] at hps
    rw [Lexer.glue_cons, append_eq_append_cons] at hglue
    obtain ⟨w, rfl, hrest⟩ | ⟨w, hp, rfl⟩ := hglue
    · have hpiece : CalmText (kinds [p]) p.text :=
        ⟨[p], List.forall_mem_singleton.mpr hps.1, rfl, List.append_nil _⟩
      rw [Quote.run_append, hpiece.quote_run] at hout
      obtain ⟨ks₁, mid, ks₂, hks, hu, hv, hmid⟩ := ih hout hps.2 hrest
      refine ⟨kinds [p] ++ ks₁, mid, ks₂, ?_, hpiece.append hu, hv, hmid⟩
      rw [Lexer.kinds_cons, hks, List.append_assoc]
    · obtain ⟨rfl, rfl, hmid⟩ := hps.1.cut hp hout hb
      exact ⟨[], kinds [p], kinds ps, Lexer.kinds_cons p ps, nil, ⟨ps, hps.2, rfl, rfl⟩, hmid⟩

theorem cut_mark {m : Mark} (hm : Ascii.isSilent m.byte = false)
    (h : CalmText ks (u ++ m.byte :: v)) (hout : (Quote.run {} u).holds m.byte = false) :
    ∃ ks₁ ks₂, ks = ks₁ ++ .mark m :: ks₂ ∧ CalmText ks₁ u ∧ CalmText ks₂ v := by
  obtain ⟨ks₁, mid, ks₂, hks, hu, hv, ⟨hblank, -⟩ | ⟨n, hn, rfl⟩⟩ := h.cut hout hm
  · exact absurd (m.isBlank_byte.symm.trans hblank) Bool.false_ne_true
  · exact ⟨ks₁, ks₂, Mark.byte_injective hn ▸ hks, hu, hv⟩

theorem cut_blank (hblank : Ascii.isBlank b = true) (h : CalmText ks (u ++ b :: v))
    (hout : (Quote.run {} u).holds b = false) :
    ∃ ks₁ ks₂, ks = ks₁ ++ ks₂ ∧ CalmText ks₁ u ∧ CalmText ks₂ v := by
  have hloud : Ascii.isSilent b = false := by simp [Ascii.isSilent, hblank]
  obtain ⟨ks₁, mid, ks₂, hks, hu, hv, ⟨-, rfl⟩ | ⟨m, rfl, -⟩⟩ := h.cut hout hloud
  · exact ⟨ks₁, ks₂, hks, hu, hv⟩
  · exact absurd (m.isBlank_byte.symm.trans hblank) Bool.false_ne_true

/-- A mark that is among no tokens stands nowhere, also in no literal if there is none. -/
theorem not_mem {m : Mark} (hm : Ascii.isSilent m.byte = false) (h : CalmText ks s)
    (hliteral : .string ∉ ks) (hmark : .mark m ∉ ks) : m.byte ∉ s := by
  obtain ⟨ps, hps, rfl, rfl⟩ := h
  intro hmem
  obtain ⟨p, hp, hbyte⟩ := List.mem_flatMap.mp hmem
  have hkind : ∀ k, p.kind = .token k → k ∈ kinds ps := fun k hk =>
    List.mem_map.mpr ⟨(k, p.text), List.mem_filterMap.mpr ⟨p, hp, by simp [Piece.lexeme?, hk]⟩, rfl⟩
  cases hps p hp with
  | blank hb =>
    rw [← List.mem_singleton.mp hbyte, m.isBlank_byte] at hb
    exact Bool.false_ne_true hb
  | mark n => exact hmark (Mark.byte_injective (List.mem_singleton.mp hbyte) ▸ hkind _ rfl)
  | literal => exact hliteral (hkind _ rfl)
  | silent _ hs => exact Bool.false_ne_true (hm.symm.trans (hs _ hbyte))

theorem mem_of_mark {m : Mark} (h : CalmText ks s) (hm : .mark m ∈ ks) : m.byte ∈ s := by
  obtain ⟨ps, hps, rfl, rfl⟩ := h
  obtain ⟨⟨k, text⟩, hlexeme, hk⟩ := List.mem_map.mp hm
  obtain rfl : k = .mark m := hk
  obtain ⟨p, hp, hlexeme⟩ := List.mem_filterMap.mp hlexeme
  refine List.mem_flatMap.mpr ⟨p, hp, ?_⟩
  unfold Lexer.Piece.lexeme? at hlexeme
  split at hlexeme
  · rename_i k hkind
    obtain ⟨rfl, -⟩ := Prod.mk.inj (Option.some.inj hlexeme)
    cases hps p hp with
    | blank => exact nomatch hkind
    | mark n =>
      obtain rfl := TokenKind.mark.inj (Lexer.PieceKind.token.inj hkind)
      exact List.mem_singleton_self _
    | literal => exact nomatch Lexer.PieceKind.token.inj hkind
    | silent hk => exact absurd hkind (hk m)
  · exact nomatch hlexeme

theorem between {o c : Mark} (ho : Ascii.isSilent o.byte = false)
    (hc : Ascii.isSilent c.byte = false)
    (h : CalmText (.mark o :: (ks ++ [.mark c])) (o.byte :: (s ++ [c.byte]))) : CalmText ks s := by
  obtain ⟨ks₁, ks₂, hsplit, hnone, hrest⟩ := h.cut_mark (u := []) ho o.isQuote_byte
  obtain rfl : ks₁ = [] := by
    cases ks₁ with
    | nil => rfl
    | cons k ks₁ =>
      obtain ⟨rfl, -⟩ := List.cons.inj hsplit
      exact absurd (hnone.mem_of_mark List.mem_cons_self) List.not_mem_nil
  obtain rfl := (List.cons.inj hsplit).2
  have hclosed : Quote.run {} s = {} :=
    (Quote.good_start.run s).eq_start_of_run (List.forall_mem_singleton.mpr c.isQuote_byte)
      (by rw [← Quote.run_append]; exact hrest.quote_run)
  obtain ⟨ks₁, ks₂, hsplit, hs, hnone⟩ := hrest.cut_mark hc (by rw [hclosed]; exact c.isQuote_byte)
  rcases List.eq_nil_or_concat ks₂ with rfl | ⟨init, k, rfl⟩
  · exact (List.append_inj' hsplit rfl).1 ▸ hs
  · rw [List.concat_eq_append, ← List.cons_append, ← List.append_assoc] at hsplit
    obtain rfl := List.singleton_inj.mp (List.append_inj' hsplit rfl).2
    exact absurd (hnone.mem_of_mark (m := c) (by simp)) List.not_mem_nil

end CalmText

/-! ## How calm pieces end -/

/-- A byte that may end a member: no blank, no separator, no closing parenthesis and no slash. -/
def Ascii.isFinal (b : UInt8) : Bool :=
  !isBlank b && !isSeparator b && b != rparen && b != slash

theorem Ascii.isFinal_iff {b : UInt8} : isFinal b = true ↔
    isBlank b = false ∧ isSeparator b = false ∧ b ≠ rparen ∧ b ≠ slash := by
  simp [isFinal, and_assoc]

theorem Ascii.isFinal_of_isSilent {b : UInt8} (h : isSilent b = true) : isFinal b = true := by
  obtain ⟨hblank, -, hloud⟩ := isSilent_iff.mp h
  have hne : ∀ x ∈ loud, b ≠ x := fun x hx heq => hloud (heq ▸ hx)
  have hseparator : isSeparator b = false := by
    simp [isSeparator, hne comma (by decide), hne semi (by decide)]
  exact isFinal_iff.mpr ⟨hblank, hseparator, hne rparen (by decide), hne slash (by decide)⟩

theorem Ascii.isFinal_of_isQuote {b : UInt8} (h : Quote.isQuote b = true) : isFinal b = true := by
  rw [Quote.isQuote, Bool.or_eq_true, beq_iff_eq, beq_iff_eq] at h
  rcases h with rfl | rfl <;> rfl

theorem Ascii.isBlank_of_isFinal {b : UInt8} (h : isFinal b = true) : isBlank b = false :=
  (isFinal_iff.mp h).1

theorem Ascii.isSeparator_of_isFinal {b : UInt8} (h : isFinal b = true) : isSeparator b = false :=
  (isFinal_iff.mp h).2.1

theorem IsLiteral.last {s : Bytes} (h : IsLiteral s) {x : UInt8} (hx : s.getLast? = some x) :
    Quote.isQuote x = true := by
  obtain ⟨u, rfl⟩ := List.getLast?_eq_some_iff.mp hx
  by_contra hquote
  rw [Bool.not_eq_true] at hquote
  have hinside : (Quote.run {} u).holds x = true := h.inside u x [] rfl
  rw [Quote.holds, hquote, Bool.or_false] at hinside
  have hopen := Quote.isSome_step (Quote.good_start.run u) hinside hquote
  have hrun := h.run
  rw [Quote.run_append] at hrun
  rw [show (Quote.run {} u).step x = {} from hrun] at hopen
  exact absurd hopen (by decide)

/-- The kinds of the tokens that may end a member. -/
def TokenKind.isFinal : TokenKind → Bool
  | .int | .float | .string | .identifier | .mark .rbracket | .mark .rbrace => true
  | _ => false

theorem Lexer.Piece.Calm.last {p : Piece} (h : p.Calm) {k : TokenKind} (hp : p.kind = .token k)
    (hk : k.isFinal = true) {x : UInt8} (hx : p.text.getLast? = some x) :
    Ascii.isFinal x = true := by
  cases h with
  | blank => exact nomatch hp
  | mark m =>
    obtain rfl := Option.some.inj hx
    obtain rfl := PieceKind.token.inj hp
    cases m <;> first | rfl | exact absurd hk Bool.false_ne_true
  | literal hs => exact Ascii.isFinal_of_isQuote (hs.last hx)
  | silent _ hs => exact Ascii.isFinal_of_isSilent (hs x (List.mem_of_getLast? hx))

theorem Lexer.Piece.Calm.text_of_mark {p : Piece} (h : p.Calm) {m : Mark}
    (hp : p.kind = .token (.mark m)) : p.text = [m.byte] := by
  cases h with
  | blank => exact nomatch hp
  | mark n => rw [TokenKind.mark.inj (PieceKind.token.inj hp)]
  | literal => exact nomatch PieceKind.token.inj hp
  | silent hk => exact absurd hp (hk m)

/-- A token that is a calm piece does not end in a blank. -/
theorem Lexer.Piece.Calm.last_visible {p : Piece} (h : p.Calm) {k : TokenKind}
    (hp : p.kind = .token k) {x : UInt8} (hx : p.text.getLast? = some x) :
    Ascii.isBlank x = false := by
  cases h with
  | blank => exact nomatch hp
  | mark m =>
    obtain rfl := Option.some.inj hx
    exact m.isBlank_byte
  | literal hs => exact Ascii.isBlank_of_isFinal (Ascii.isFinal_of_isQuote (hs.last hx))
  | silent _ hs =>
    exact Ascii.isBlank_of_isFinal (Ascii.isFinal_of_isSilent (hs x (List.mem_of_getLast? hx)))

/-- A calm piece that ends in a slash is one. -/
theorem Lexer.Piece.Calm.text_of_slash {p : Piece} (h : p.Calm)
    (hlast : p.text.getLast? = some Ascii.slash) : p.text = [Ascii.slash] := by
  cases h with
  | blank | mark => exact congrArg (fun x => [x]) (Option.some.inj hlast)
  | literal hs => exact absurd (hs.last hlast) (by decide)
  | silent _ hs => exact absurd (hs _ (List.mem_of_getLast? hlast)) (by decide)

/-! ## Code -/

theorem Ascii.isPlain_of_isSilent {b : UInt8} (h : isSilent b = true) : isPlain b = true := by
  obtain ⟨-, hquote, hloud⟩ := isSilent_iff.mp h
  have hne : ∀ x ∈ loud, b ≠ x := fun x hx heq => hloud (heq ▸ hx)
  simp [isPlain, hquote, hne hash (by decide), hne slash (by decide)]

/-- A calm piece is code, if it is not a slash. -/
theorem Lexer.Piece.Calm.isCode {p : Piece} (h : p.Calm) (hslash : p.text ≠ [Ascii.slash])
    (hline : Ascii.newline ∉ p.text) : IsCode p.text := by
  cases h with
  | blank hb => exact .of_plain (List.forall_mem_singleton.mpr (Ascii.isPlain_of_isBlank hb))
  | mark m =>
    refine .of_plain (List.forall_mem_singleton.mpr ?_)
    cases m <;> first | rfl | exact absurd rfl hslash
  | @literal s hs =>
    refine ⟨?_, hs.run⟩
    have hinside := hs.inside
    clear hs hslash
    generalize ({} : Quote) = q at hinside
    induction s generalizing q with
    | nil => trivial
    | cons b s ih =>
      rw [EachByte.cons_iff] at hinside
      rw [List.mem_cons, not_or] at hline
      refine ⟨?_, ih hline.2 (q.step b) hinside.2⟩
      have hholds : q.holds b = true := hinside.1
      rw [if_pos hholds]
      exact Ne.symm hline.1
  | silent _ hs => exact .of_plain fun b hb => Ascii.isPlain_of_isSilent (hs b hb)

/-- A slash that no other slash follows starts no comment. -/
theorem splitLineComment_slash {s : Bytes} (hs : s.head? ≠ some Ascii.slash) :
    splitLineComment (Ascii.slash :: s) =
      (Ascii.slash :: (splitLineComment s).1, (splitLineComment s).2) := by
  have hhead : (s.head? == some Ascii.slash) = false := beq_eq_false_iff_ne.mpr hs
  rw [splitLineComment, splitLineComment.go, hhead, if_neg (by decide)]
  rfl

theorem Lexer.Piece.Calm.not_comment {k : PieceKind} {s : Bytes}
    (h : Calm ⟨k, Ascii.slash :: s⟩) : k ≠ .comment .line := by
  rintro rfl
  cases h with
  | silent _ hs => exact absurd (hs _ List.mem_cons_self) (by decide)

/-- A calm piece in front of a text belongs to its code, unless it is a slash in front of a
slash. -/
theorem Lexer.Piece.Calm.splitLineComment {p : Piece} (h : p.Calm)
    (hline : Ascii.newline ∉ p.text) {v : Bytes}
    (hv : p.text = [Ascii.slash] → v.head? ≠ some Ascii.slash) :
    ThriftLayout.splitLineComment (p.text ++ v) =
      (p.text ++ (ThriftLayout.splitLineComment v).1, (ThriftLayout.splitLineComment v).2) := by
  by_cases hslash : p.text = [Ascii.slash]
  · rw [hslash, List.singleton_append, splitLineComment_slash (hv hslash)]
    rfl
  · exact splitLineComment_append_left (h.isCode hslash hline) v

/-- A slash that is a calm piece has no other behind it. -/
theorem Lexer.Piece.Calm.head_behind {b : UInt8} {rest : Bytes} {k : PieceKind} {n : Nat}
    (hclass : classify b rest = (k, n)) (h : Calm ⟨k, b :: rest.take n⟩)
    (hslash : b :: rest.take n = [Ascii.slash]) :
    (rest.drop n).head? ≠ some Ascii.slash := by
  obtain ⟨rfl, htake⟩ := List.cons.inj hslash
  have hdrop : rest.drop n = rest := by
    have hsplit := List.take_append_drop n rest
    rwa [htake, List.nil_append] at hsplit
  rw [hdrop]
  intro hc
  obtain ⟨more, rfl⟩ := List.head?_eq_some_iff.mp hc
  exact h.not_comment (congrArg Prod.fst hclass).symm

/-- Calm pieces in front of a text belong to its code. -/
theorem splitLineComment_calm {s t : Bytes} (hcalm : ∀ p ∈ Lexer.pieces s, p.Calm)
    (hline : Ascii.newline ∉ s)
    (hnext : s.getLast? = some Ascii.slash → t.head? ≠ some Ascii.slash) :
    splitLineComment (s ++ t) = (s ++ (splitLineComment t).1, (splitLineComment t).2) := by
  fun_induction Lexer.pieces s with
  | case1 => rfl
  | case2 b rest k n hclass ih =>
    obtain ⟨hfirst, hmore⟩ := List.forall_mem_cons.mp hcalm
    have hsplit : b :: rest = (b :: rest.take n) ++ rest.drop n := by
      rw [List.cons_append, List.take_append_drop]
    rw [hsplit] at hline hnext ⊢
    have hpiece : Ascii.newline ∉ b :: rest.take n := fun hmem =>
      hline (List.mem_append_left _ hmem)
    have hback := ih hmore (fun hmem => hline (List.mem_append_right _ hmem)) fun hlast =>
      hnext (by rw [List.getLast?_append, hlast, Option.some_or])
    have hbehind : b :: rest.take n = [Ascii.slash] →
        (rest.drop n ++ t).head? ≠ some Ascii.slash := by
      intro hslash
      cases hdrop : rest.drop n with
      | nil =>
        rw [hdrop, hslash] at hnext
        exact hnext rfl
      | cons c more =>
        have hhead := hfirst.head_behind hclass hslash
        rw [hdrop] at hhead
        exact hhead
    rw [List.append_assoc, hfirst.splitLineComment hpiece hbehind, hback, List.append_assoc]

end ThriftLayout
