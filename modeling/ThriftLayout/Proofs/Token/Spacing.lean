import ThriftLayout.Proofs.Text.AsciiBlanks
import ThriftLayout.Proofs.Token.LineBreaks

/-!
# Tokens with other blanks between them

A token stops at the first blank behind it, whatever it stopped at before, and on its own it is read
as the token it was. So the tokens of a source can be written with any blanks between them: they are
read again as the same tokens, and nothing else is found.

Results:

* `Lexer.pieces_of_token`: a token on its own.
* `Lexer.visible_spacedOut`: the pieces of tokens with blanks between them.
* `lex_spacedOut`: the tokens of a source with blanks between them.
-/
namespace ThriftLayout

/-- Texts one behind the other, with one or more blanks between any two of them. -/
inductive SpacedOut : List Bytes → Bytes → Prop where
  | nil : SpacedOut [] []
  | single (t : Bytes) : SpacedOut [t] t
  | cons (t : Bytes) {g u : Bytes} {ts : List Bytes} {s : Bytes} (hg : g ≠ [])
      (hblank : AllBlank g) (h : SpacedOut (u :: ts) s) : SpacedOut (t :: u :: ts) (t ++ (g ++ s))

namespace Lexer

def Piece.isBlank (p : Piece) : Bool := p.kind == .blank

def visible (ps : List Piece) : List Piece := ps.filter (!·.isBlank)

theorem visible_append (ps qs : List Piece) : visible (ps ++ qs) = visible ps ++ visible qs :=
  List.filter_append ps qs

/-- A token on its own is read as that token. -/
theorem pieces_of_token {src : Bytes} {p : Piece} (h : p ∈ pieces src) {k : TokenKind}
    (hk : p.kind = .token k) : pieces p.text = [p] := by
  obtain ⟨ps, qs, h⟩ := List.append_of_mem h
  have hrun : pieces (glue ([] ++ [p])) = [] ++ [p] := pieces_run h hk
  rwa [List.nil_append, glue_cons, glue_nil, List.append_nil] at hrun

theorem visible_blanks {g : Bytes} (hg : AllBlank g) (z : Bytes) :
    visible (pieces (g ++ z)) = visible (pieces z) := by
  rw [pieces_blanks hg, visible_append]
  have hnone : visible (g.map fun b => ⟨.blank, [b]⟩) = [] := by simp [visible, Piece.isBlank]
  rw [hnone, List.nil_append]

/-- Tokens that are each read as themselves are so with blanks between them. -/
theorem visible_spacedOut {ps : List Piece} {s : Bytes} (h : SpacedOut (ps.map Piece.text) s)
    (hps : ∀ p ∈ ps, pieces p.text = [p] ∧ ∃ k, p.kind = .token k) :
    visible (pieces s) = ps := by
  have hsingle {p : Piece} (hp : p ∈ ps) : visible [p] = [p] := by
    obtain ⟨k, hk⟩ := (hps p hp).2
    simp [visible, Piece.isBlank, hk]
  generalize hts : ps.map Piece.text = ts at h
  induction h generalizing ps with
  | nil =>
    obtain rfl := List.map_eq_nil_iff.mp hts
    rw [pieces]
    rfl
  | single t =>
    obtain ⟨p, rfl, rfl⟩ := List.map_eq_singleton_iff.mp hts
    have hp : p ∈ [p] := List.mem_singleton_self p
    rw [(hps p hp).1, hsingle hp]
  | @cons t g u ts s hg hblank _ ih =>
    obtain ⟨p, ps, rfl, rfl, hrest⟩ := List.map_eq_cons_iff.mp hts
    have hp : p ∈ p :: ps := List.mem_cons_self
    have hmore := ih (fun q hq => hps q (List.mem_cons_of_mem p hq))
      (fun hq => hsingle (List.mem_cons_of_mem p hq)) hrest
    obtain ⟨k, hk⟩ := (hps p hp).2
    have hcalm : ∀ q ∈ pieces p.text, ¬ q.kind.Breaks := by
      rw [(hps p hp).1, List.forall_mem_singleton, hk]
      exact id
    -- The token ends at the first of the blanks.
    have hstops : StopsBehind p.text (g ++ s) := by
      obtain ⟨b, g, rfl⟩ := List.exists_cons_of_ne_nil hg
      exact .of_blank (hblank b List.mem_cons_self) p.text (g ++ s)
    rw [pieces_append hcalm hstops, visible_append, visible_blanks hblank, hmore, (hps p hp).1,
      hsingle hp, List.singleton_append]

/-- Where all pieces but blanks are tokens, these are all that is found. -/
theorem place_of_tokens (start line : Nat) {ps : List Piece}
    (h : ∀ p ∈ visible ps, ∃ k, p.kind = .token k) :
    (place start line ps).tokens.map Token.lexeme = (visible ps).filterMap Piece.lexeme? ∧
      (place start line ps).comments = [] ∧ (place start line ps).faults = [] := by
  induction ps generalizing start line with
  | nil => exact ⟨rfl, rfl, rfl⟩
  | cons p ps ih =>
    cases hk : p.kind with
    | blank =>
      have hskip : visible (p :: ps) = visible ps := by simp [visible, Piece.isBlank, hk]
      rw [hskip] at h ⊢
      rw [place, hk]
      exact ih _ _ h
    | token k =>
      have hkeep : visible (p :: ps) = p :: visible ps := by simp [visible, Piece.isBlank, hk]
      have hlexeme : p.lexeme? = some (k, p.text) := by simp [Piece.lexeme?, hk]
      rw [hkeep] at h ⊢
      obtain ⟨htokens, hcomments, hfaults⟩ := ih (start + p.text.length)
        (line + p.newlines) (List.forall_mem_cons.mp h).2
      rw [place, hk, List.filterMap_cons_some hlexeme, ← htokens]
      exact ⟨rfl, hcomments, hfaults⟩
    | comment | openComment | bad =>
      have hkeep : visible (p :: ps) = p :: visible ps := by simp [visible, Piece.isBlank, hk]
      rw [hkeep] at h
      obtain ⟨k, htoken⟩ := (List.forall_mem_cons.mp h).1
      rw [hk] at htoken
      cases htoken

def tokenPieces (ps : List Piece) : List Piece := ps.filter (·.lexeme?.isSome)

theorem Piece.token_of_lexeme {p : Piece} (h : p.lexeme?.isSome = true) :
    ∃ k, p.kind = .token k ∧ p.lexeme? = some (k, p.text) := by
  unfold lexeme? at h ⊢
  split at h
  · rename_i k hk
    exact ⟨k, hk, rfl⟩
  · exact nomatch h

theorem filterMap_tokenPieces (ps : List Piece) :
    (tokenPieces ps).filterMap Piece.lexeme? = ps.filterMap Piece.lexeme? := by
  rw [tokenPieces, List.filterMap_filter]
  refine List.filterMap_congr fun p _ => ?_
  cases p.lexeme? <;> rfl

/-- The texts of the tokens that could be read are those of the pieces that are tokens. -/
theorem texts_tokenPieces (src : Bytes) :
    (tokenPieces (pieces src)).map Piece.text = (lex src).good.map Token.text := by
  have hlexemes := lexemes_lex src
  rw [← filterMap_tokenPieces] at hlexemes
  have htexts : ((tokenPieces (pieces src)).filterMap Piece.lexeme?).map Prod.snd =
      (tokenPieces (pieces src)).map Piece.text := by
    rw [List.map_filterMap, ← List.filterMap_eq_map]
    refine List.filterMap_congr fun p hp => ?_
    obtain ⟨k, -, hlexeme⟩ := Piece.token_of_lexeme (List.mem_filter.mp hp).2
    rw [hlexeme]
    rfl
  rw [← htexts, ← hlexemes, List.map_map]
  rfl

end Lexer

open Lexer in
/-- The tokens of a source that could be read, written with any blanks between them, are read as
the same tokens by kind and text, and neither comments nor faults are found. -/
theorem lex_spacedOut {src s : Bytes} (h : SpacedOut ((lex src).good.map Token.text) s) :
    (lex s).allTokens.map Token.lexeme =
        (lex src).good.map Token.lexeme ++ [(TokenKind.eof, [])] ∧
      (lex s).comments = [] ∧ (lex s).diagnostics = [] := by
  rw [← texts_tokenPieces] at h
  have hps : ∀ p ∈ tokenPieces (pieces src), pieces p.text = [p] ∧ ∃ k, p.kind = .token k := by
    intro p hp
    obtain ⟨hmem, hsome⟩ := List.mem_filter.mp hp
    obtain ⟨k, hk, -⟩ := Piece.token_of_lexeme hsome
    exact ⟨pieces_of_token hmem hk, k, hk⟩
  have hvisible := visible_spacedOut h hps
  have htoken : ∀ p ∈ visible (pieces s), ∃ k, p.kind = .token k := fun p hp =>
    (hps p (hvisible ▸ hp)).2
  obtain ⟨htokens, hcomments, hfaults⟩ := place_of_tokens 0 0 htoken
  refine ⟨?_, hcomments, congrArg (List.map Located.diagnostic) hfaults⟩
  rw [hvisible, filterMap_tokenPieces, ← lexemes_lex] at htokens
  rw [Result.allTokens, List.map_append, List.map_singleton]
  exact congrArg₂ _ htokens (by rw [lex_eq]; rfl)

/-- An exponent mark without digits, a literal, a hexadecimal number and a sign in front of a name
with a dot. -/
def crowded : Bytes := utf8 "1e.5/'a b'0x1F+x.y"

/-- The exponent mark takes the point with it, and no slash meets another. -/
theorem lex_spacedOut_crowded :
    SpacedOut ((lex crowded).good.map Token.text) (utf8 "1 e.5\n/\t\r'a b' 0x1F\x0b\x0c+ x.y") ∧
      ((lex (utf8 "1 e.5\n/\t\r'a b' 0x1F\x0b\x0c+ x.y")).allTokens.map Token.lexeme =
        [(.int, utf8 "1"), (.identifier, utf8 "e.5"), (.mark .slash, utf8 "/"),
          (.string, utf8 "'a b'"), (.int, utf8 "0x1F"), (.mark .plus, utf8 "+"),
          (.identifier, utf8 "x.y"), (.eof, [])]) := by
  have htexts : (lex crowded).good.map Token.text = [utf8 "1", utf8 "e.5", utf8 "/", utf8 "'a b'",
      utf8 "0x1F", utf8 "+", utf8 "x.y"] := by decide +kernel
  have hspaced : SpacedOut ((lex crowded).good.map Token.text)
      (utf8 "1 e.5\n/\t\r'a b' 0x1F\x0b\x0c+ x.y") := by
    rw [htexts]
    have hblank : ∀ g : Bytes, g.all Ascii.isBlank = true → AllBlank g := fun g h =>
      List.all_eq_true.mp h
    exact .cons (utf8 "1") (g := utf8 " ") (by decide) (hblank _ rfl)
      (.cons (utf8 "e.5") (g := utf8 "\n") (by decide) (hblank _ rfl)
      (.cons (utf8 "/") (g := utf8 "\t\r") (by decide) (hblank _ rfl)
      (.cons (utf8 "'a b'") (g := utf8 " ") (by decide) (hblank _ rfl)
      (.cons (utf8 "0x1F") (g := utf8 "\x0b\x0c") (by decide) (hblank _ rfl)
      (.cons (utf8 "+") (g := utf8 " ") (by decide) (hblank _ rfl) (.single (utf8 "x.y")))))))
  refine ⟨hspaced, ?_⟩
  rw [(lex_spacedOut hspaced).1]
  decide +kernel

end ThriftLayout
