import ThriftLayout.Editor.Session
import ThriftLayout.Proofs.Text.AsciiBlanks
import ThriftLayout.Proofs.Text.Cut
import ThriftLayout.Text.Integer

/-!
# Frames on a stream

A frame that was written is read back whatever follows it, since its own header says where the body
ends: header lines are looked at one by one, and no byte of the body is. On any other stream a read
may refuse what it finds, but it leaves less of the stream than there was, so after finitely many
reads the end is reported.

The one thing that keeps a stream from being read to its end is a header that gives a length there
is no room for. The program dies there, with the headers of that frame taken.

Results:

* `Integer.decimal?_ofNat`: reading digits gives back the number, up to the greatest one.
* `Frame.read_write`: a frame is read back, and what follows it is left.
* `Frame.rest_of_read`: what is left of a stream is the end of it, behind something that was taken.
* `Frame.read_crashed_iff`: the streams that a program dies of.
* `Frame.reads_of_frames`, `Frame.exists_reads`: reads of frames, and of any stream.
* `frames_read_back`: all of this, with the session that is served on the stream.
-/
namespace ThriftLayout

/-! ## Decimal digits are read back -/

theorem utf8_append (s t : String) : utf8 (s ++ t) = utf8 s ++ utf8 t := by
  rw [utf8, String.toList_append, List.flatMap_append]
  rfl

namespace Bytes

def digit (d : Nat) : UInt8 := UInt8.ofNat (0x30 + d)

theorem utf8_digitChar {d : Nat} (h : d < 10) :
    utf8 (String.singleton d.digitChar) = [digit d] := by
  have hall : ∀ d : Fin 10, utf8 (String.singleton d.val.digitChar) = [digit d] := by decide
  exact hall ⟨d, h⟩

theorem ofNat_of_lt {n : Nat} (h : n < 10) : ofNat n = [digit n] := by
  rw [ofNat, Nat.toString_eq_repr, Nat.repr_of_lt h, utf8_digitChar h]

theorem ofNat_of_ge {n : Nat} (h : 10 ≤ n) : ofNat n = ofNat (n / 10) ++ [digit (n % 10)] := by
  rw [ofNat, Nat.toString_eq_repr, Nat.repr_of_ge h, utf8_append,
    utf8_digitChar (Nat.mod_lt n (by decide))]
  rfl

theorem ofNat_ne_nil (n : Nat) : ofNat n ≠ [] := by
  by_cases h : n < 10
  · rw [ofNat_of_lt h]
    exact List.cons_ne_nil _ _
  · rw [ofNat_of_ge (Nat.le_of_not_lt h)]
    exact List.append_ne_nil_of_right_ne_nil _ (List.cons_ne_nil _ _)

theorem isDigit_digit {d : Nat} (h : d < 10) : Ascii.isDigit (digit d) = true := by
  have hall : ∀ d : Fin 10, Ascii.isDigit (digit d) = true := by decide
  exact hall ⟨d, h⟩

theorem isDigit_ofNat (n : Nat) : ∀ b ∈ ofNat n, Ascii.isDigit b = true := by
  induction n using Nat.strongRecOn with
  | ind n ih =>
    by_cases h : n < 10
    · rw [ofNat_of_lt h]
      exact List.forall_mem_singleton.mpr (isDigit_digit h)
    · rw [ofNat_of_ge (Nat.le_of_not_lt h)]
      refine List.forall_mem_append.mpr ⟨ih (n / 10) (by omega), ?_⟩
      exact List.forall_mem_singleton.mpr (isDigit_digit (Nat.mod_lt n (by decide)))

end Bytes

namespace Integer

open Bytes (digit ofNat)

theorem digits_append (base acc : Nat) (underscores : Bool) (s t : Bytes) :
    digits base underscores acc (s ++ t) =
      digits base underscores acc s >>= fun n => digits base underscores n t := by
  fun_induction digits base underscores acc s with
  | case1 acc => rfl
  | case2 acc b rest hskip ih =>
    rw [List.cons_append, digits, if_pos hskip, ih]
  | case3 acc b rest hskip hnone =>
    rw [List.cons_append, digits, if_neg hskip, hnone]
    rfl
  | case4 acc b rest hskip d hd hbase =>
    rw [List.cons_append, digits, if_neg hskip, hd]
    simp only [hbase, if_true]
    rfl
  | case5 acc b rest hskip d hd hbase hrange =>
    rw [List.cons_append, digits, if_neg hskip, hd]
    simp only [hbase, hrange, if_true, if_false]
    rfl
  | case6 acc b rest hskip d hd hbase hrange ih =>
    rw [List.cons_append, digits, if_neg hskip, hd]
    simp only [hbase, hrange, if_false]
    exact ih

theorem digit?_digit {d : Nat} (h : d < 10) : digit? (digit d) = some d := by
  have hall : ∀ d : Fin 10, digit? (digit d) = some d.val := by decide
  exact hall ⟨d, h⟩

theorem digits_digit {acc d : Nat} (h : d < 10) (hrange : acc * 10 + d < 0x10000000000000000) :
    digits 10 false acc [digit d] = .ok (acc * 10 + d) := by
  simp only [digits, Bool.false_and, Bool.false_eq_true, if_false, digit?_digit h]
  rw [if_neg (by omega), if_neg (by omega)]

theorem digits_ofNat {n : Nat} (h : n < 0x10000000000000000) :
    digits 10 false 0 (ofNat n) = .ok n := by
  induction n using Nat.strongRecOn with
  | ind n ih =>
    by_cases hsmall : n < 10
    · rw [Bytes.ofNat_of_lt hsmall, digits_digit hsmall (by omega)]
      simp
    · rw [Bytes.ofNat_of_ge (Nat.le_of_not_lt hsmall), digits_append,
        ih (n / 10) (by omega) (by omega)]
      have hsum : n / 10 * 10 + n % 10 = n := Nat.div_add_mod' n 10
      show digits 10 false (n / 10) [digit (n % 10)] = .ok n
      rw [digits_digit (Nat.mod_lt n (by decide)) (by omega), hsum]

theorem sign_ofNat (n : Nat) : sign (ofNat n) = (false, ofNat n) := by
  cases hn : ofNat n with
  | nil => rfl
  | cons b rest =>
    have hb : Ascii.isDigit b = true := Bytes.isDigit_ofNat n b (hn ▸ List.mem_cons_self)
    have hminus : (b == Ascii.minus) = false := by
      rw [beq_eq_false_iff_ne]
      rintro rfl
      exact absurd hb (by decide)
    have hplus : (b == Ascii.plus) = false := by
      rw [beq_eq_false_iff_ne]
      rintro rfl
      exact absurd hb (by decide)
    rw [sign, hminus, hplus]
    rfl

theorem decimal?_ofNat {n : Nat} (h : n ≤ greatest.toNat) : decimal? (ofNat n) = some n := by
  have hbound : n ≤ 0x7FFFFFFFFFFFFFFF := h
  have hsome : (ofNat n).isEmpty = false := by
    rw [List.isEmpty_eq_false_iff]
    exact Bytes.ofNat_ne_nil n
  unfold decimal? decimal
  rw [sign_ofNat]
  simp only [hsome, Bool.false_eq_true, if_false, digits_ofNat (show n < _ by omega)]
  show (signed false n).toOption = some (n : Int)
  unfold signed least greatest
  simp only [Bool.false_eq_true, if_false]
  rw [if_pos (by omega)]
  rfl

end Integer

namespace Frame

/-! ## What a read leaves -/

section Progress

variable {room : Nat} {s line rest r : Bytes}

theorem takeLine?_eq (h : takeLine? s = some (line, rest)) : s = line ++ rest ∧ line ≠ [] := by
  induction s generalizing line with
  | nil => exact nomatch h
  | cons b s ih =>
    unfold takeLine? at h
    split at h
    · obtain ⟨rfl, rfl⟩ := Prod.mk.inj (Option.some.inj h)
      exact ⟨rfl, List.cons_ne_nil _ _⟩
    · obtain ⟨⟨l, r⟩, hl, he⟩ := Option.map_eq_some_iff.mp h
      obtain ⟨rfl, rfl⟩ := Prod.mk.inj he
      exact ⟨congrArg (b :: ·) (ih hl).1, List.cons_ne_nil _ _⟩

theorem rest_of_body {n : Nat} (h : (body room n s).rest? = some r) : r <:+ s := by
  unfold body at h
  split at h
  · obtain rfl := Option.some.inj h
    exact List.suffix_refl s
  split at h
  · obtain rfl := Option.some.inj h
    exact List.drop_suffix n s
  split at h
  · exact nomatch h
  · obtain rfl := Option.some.inj h
    exact List.nil_suffix

theorem rest_of_readAfter {known : Option Nat} (h : (readAfter room known s).rest? = some r) :
    ∃ t, t ≠ [] ∧ s = t ++ r := by
  fun_induction readAfter room known s with
  | case1 => cases h
  | case2 s line rest hline _ n =>
    obtain ⟨rfl, hne⟩ := takeLine?_eq hline
    obtain ⟨t, rfl⟩ := rest_of_body h
    exact ⟨line ++ t, List.append_ne_nil_of_left_ne_nil hne t, (List.append_assoc ..).symm⟩
  | case3 s line rest hline _ =>
    obtain ⟨rfl, hne⟩ := takeLine?_eq hline
    obtain rfl := Option.some.inj h
    exact ⟨line, hne, rfl⟩
  | case4 known s line rest hline _ f =>
    obtain ⟨rfl, hne⟩ := takeLine?_eq hline
    obtain rfl := Option.some.inj h
    exact ⟨line, hne, rfl⟩
  | case5 known s line rest hline _ known' _ ih =>
    obtain ⟨rfl, hne⟩ := takeLine?_eq hline
    obtain ⟨t, -, rfl⟩ := ih h
    exact ⟨line ++ t, List.append_ne_nil_of_left_ne_nil hne t, (List.append_assoc ..).symm⟩

/-- A read that goes on takes something off the front of the stream. -/
theorem rest_of_read (h : (read room s).rest? = some r) : ∃ t, t ≠ [] ∧ s = t ++ r :=
  rest_of_readAfter h

end Progress

/-! ## Reading what was written -/

section Written

theorem takeLine?_append {l : Bytes} (h : Ascii.newline ∉ l) (rest : Bytes) :
    takeLine? (l ++ Ascii.newline :: rest) = some (l ++ [Ascii.newline], rest) := by
  induction l with
  | nil => rfl
  | cons b l ih =>
    obtain ⟨hb, hl⟩ := List.ne_and_not_mem_of_not_mem_cons h
    have hne : (b == Ascii.newline) = false := beq_eq_false_iff_ne.mpr (Ne.symm hb)
    rw [List.cons_append, takeLine?, hne, ih hl]
    rfl

theorem isDigit_ascii {s : Bytes} (h : ∀ b ∈ s, Ascii.isDigit b = true) : AllAscii s :=
  fun b hb => Ascii.lt_of_isDigit (h b hb)

theorem isDigit_visible {b : UInt8} (h : Ascii.isDigit b = true) : Ascii.isBlank b = false :=
  Utf8.forall_byte (p := fun b => Ascii.isDigit b = true → Ascii.isBlank b = false)
    (by decide +kernel) b h

theorem lengthOf?_ofNat {n : Nat} (h : n ≤ Integer.greatest.toNat) :
    lengthOf? (Ascii.space :: Bytes.ofNat n) = some n := by
  have hdigits := Bytes.isDigit_ofNat n
  have htrim : Blank.trim (Ascii.space :: Bytes.ofNat n) = Bytes.ofNat n := by
    have hsnug : Snug (Bytes.ofNat n) :=
      ⟨fun b hb => isDigit_visible (hdigits b (List.mem_of_head? hb)),
        fun b hb => isDigit_visible (hdigits b (List.mem_of_getLast? hb))⟩
    have hbetween : Blank.trim ([Ascii.space] ++ (Bytes.ofNat n ++ [])) = Bytes.ofNat n :=
      Blank.trim_between (isDigit_ascii hdigits) hsnug (List.forall_mem_singleton.mpr rfl) nofun
    rwa [List.append_nil] at hbetween
  unfold lengthOf?
  simp only [htrim, Integer.sign_ofNat, Nat.sub_self, Nat.zero_add,
    List.takeWhile_eq_self_iff.mpr hdigits, List.take_length, Integer.decimal?_ofNat h]
  rfl

/-- The header line of a body with `n` bytes, without its newline. -/
def lengthLine (n : Nat) : Bytes :=
  utf8 "Content-Length: " ++ Bytes.ofNat n ++ [Ascii.carriageReturn]

theorem write_eq (b : Bytes) :
    write b = lengthLine b.length ++ Ascii.newline ::
      ([Ascii.carriageReturn] ++ Ascii.newline :: b) := by
  have hend : utf8 "\r\n\r\n" = [Ascii.carriageReturn, Ascii.newline, Ascii.carriageReturn,
    Ascii.newline] := by decide
  unfold write lengthLine
  rw [hend]
  simp only [List.append_assoc, List.cons_append, List.nil_append]

theorem not_newline_of_isDigit {b : UInt8} (h : Ascii.isDigit b = true) :
    b ≠ Ascii.newline ∧ b ≠ Ascii.carriageReturn ∧ b ≠ Ascii.colon := by
  refine ⟨?_, ?_, ?_⟩ <;> rintro rfl <;> exact absurd h (by decide)

theorem newline_not_mem_lengthLine (n : Nat) : Ascii.newline ∉ lengthLine n := by
  unfold lengthLine
  simp only [List.mem_append, not_or, List.mem_singleton]
  refine ⟨⟨by decide, fun hmem => ?_⟩, by decide⟩
  exact (not_newline_of_isDigit (Bytes.isDigit_ofNat n _ hmem)).1 rfl

theorem find?_singleton {c : UInt8} {p : Bytes} (h : c ∉ p) (rest : Bytes) :
    Bytes.find? [c] (p ++ c :: rest) = some p.length := by
  induction p with
  | nil => simp [Bytes.find?]
  | cons b p ih =>
    obtain ⟨hb, hp⟩ := List.ne_and_not_mem_of_not_mem_cons h
    have hne : [c].isPrefixOf (b :: (p ++ c :: rest)) = false := by
      rw [List.isPrefixOf, beq_eq_false_iff_ne.mpr hb, Bool.false_and]
    rw [List.cons_append, Bytes.find?, hne, ih hp]
    rfl

theorem splitAtFirst?_singleton {c : UInt8} {p : Bytes} (h : c ∉ p) (rest : Bytes) :
    Bytes.splitAtFirst? [c] (p ++ c :: rest) = some (p, rest) := by
  have hdrop : (p ++ c :: rest).drop (p.length + 1) = rest := by
    rw [← List.drop_drop, List.drop_left, List.drop_one, List.tail_cons]
  rw [Bytes.splitAtFirst?, find?_singleton h, Option.map_some, List.take_left,
    List.length_singleton, hdrop]

/-- The header line gives its length, whatever was known before. -/
theorem header_lengthLine {n : Nat} (h : n ≤ Integer.greatest.toNat) (known : Option Nat) :
    header known (lengthLine n ++ [Ascii.newline]) = .ok (some n) := by
  have hline : Bytes.dropRightWhile (fun b => b == Ascii.carriageReturn || b == Ascii.newline)
      (lengthLine n ++ [Ascii.newline]) = utf8 "Content-Length: " ++ Bytes.ofNat n := by
    show List.rdropWhile _ (utf8 "Content-Length: " ++ Bytes.ofNat n ++ [Ascii.carriageReturn] ++
      [Ascii.newline]) = _
    rw [List.rdropWhile_concat_pos _ _ _ rfl, List.rdropWhile_concat_pos _ _ _ rfl,
      List.rdropWhile_eq_self_iff]
    intro hne
    rw [List.getLast_append_of_ne_nil _ (Bytes.ofNat_ne_nil n)]
    have hlast := not_newline_of_isDigit (Bytes.isDigit_ofNat n _
      (List.getLast_mem (Bytes.ofNat_ne_nil n)))
    simp [hlast.1, hlast.2.1]
  have hname : utf8 "Content-Length: " ++ Bytes.ofNat n =
      utf8 "Content-Length" ++ Ascii.colon :: (Ascii.space :: Bytes.ofNat n) := by
    rw [show utf8 "Content-Length: " = utf8 "Content-Length" ++ [Ascii.colon, Ascii.space] by
      decide]
    simp
  have hnames : namesLength (utf8 "Content-Length") = true := by decide +kernel
  unfold header
  simp only [hline, hname]
  rw [splitAtFirst?_singleton (by decide)]
  simp only [hnames, if_true, lengthOf?_ofNat h]

theorem readAfter_of_line {room : Nat} {s line rest : Bytes}
    (h : takeLine? s = some (line, rest)) (known : Option Nat) :
    readAfter room known s =
      if isEmptyLine line then
        match known with
        | some n => body room n rest
        | none => .fault .missingLength rest
      else
        match header known line with
        | .error f => .fault f rest
        | .ok known => readAfter room known rest := by
  rw [readAfter]
  split
  · rename_i hnone
    cases h.symm.trans hnone
  · rename_i hsome
    obtain ⟨rfl, rfl⟩ := Prod.mk.inj (Option.some.inj (h.symm.trans hsome))
    rfl

/-- A body is taken off the stream, if there is room for it. -/
theorem body_append (room : Nat) (b rest : Bytes) :
    body room b.length (b ++ rest) =
      if room < b.length then .crashed (b ++ rest) else .message b rest := by
  have hle : b.length ≤ (b ++ rest).length := by rw [List.length_append]; exact Nat.le_add_right ..
  rw [body, if_pos hle, List.take_left, List.drop_left]

/-- The headers of a frame that was written announce its body. -/
theorem read_write (room : Nat) {b : Bytes} (h : b.length < 0x8000000000000000) (rest : Bytes) :
    read room (write b ++ rest) =
      if room < b.length then .crashed (b ++ rest) else .message b rest := by
  have hfits : b.length ≤ Integer.greatest.toNat := Nat.le_of_lt_succ h
  have hfirst : isEmptyLine (lengthLine b.length ++ [Ascii.newline]) = false := by
    have hlong : 3 ≤ (lengthLine b.length ++ [Ascii.newline]).length := by
      have hname : (utf8 "Content-Length: ").length = 16 := by decide
      simp only [lengthLine, List.length_append, hname]
      omega
    rw [isEmptyLine, Bool.or_eq_false_iff, beq_eq_false_iff_ne, beq_eq_false_iff_ne]
    constructor <;> intro hline <;> rw [hline] at hlong <;> exact absurd hlong (by decide)
  have hframe : write b ++ rest = lengthLine b.length ++ Ascii.newline ::
      ([Ascii.carriageReturn] ++ Ascii.newline :: (b ++ rest)) := by
    rw [write_eq]
    simp only [List.append_assoc, List.cons_append, List.nil_append]
  rw [read, hframe, readAfter_of_line (takeLine?_append (newline_not_mem_lengthLine _) _), hfirst]
  simp only [Bool.false_eq_true, if_false, header_lengthLine hfits]
  rw [readAfter_of_line (takeLine?_append (by decide) _), if_pos (by decide)]
  exact body_append room b rest

end Written

/-! ## Dying of a length -/

section Announcing

variable {room : Nat} {known : Option Nat} {s rest : Bytes}

/-- Header lines and the empty line behind them give the length of a body, the last of them that
gives one at all. What was known before the lines counts where none of them does. -/
inductive Announces : Option Nat → Bytes → Nat → Bytes → Prop
  | stop {n : Nat} {s line rest : Bytes} (taken : takeLine? s = some (line, rest))
    (empty : isEmptyLine line = true) : Announces (some n) s n rest
  | header {known next : Option Nat} {n : Nat} {s line more rest : Bytes}
    (taken : takeLine? s = some (line, more)) (full : isEmptyLine line = false)
    (read : Frame.header known line = .ok next) (behind : Announces next more n rest) :
    Announces known s n rest

theorem body_crashed_iff {n : Nat} : body room n s = .crashed rest ↔ rest = s ∧ room < n := by
  unfold body
  split
  · rename_i hroom
    exact ⟨fun h => ⟨(Step.crashed.inj h).symm, hroom⟩, fun h => congrArg Step.crashed h.1.symm⟩
  · rename_i hroom
    refine iff_of_false ?_ fun h => hroom h.2
    split
    · exact nofun
    · split <;> exact nofun

theorem readAfter_crashed_iff :
    readAfter room known s = .crashed rest ↔ ∃ n, Announces known s n rest ∧ room < n := by
  constructor
  · intro h
    fun_induction readAfter room known s with
    | case1 => cases h
    | case2 s line more hline hempty n =>
      obtain ⟨rfl, hroom⟩ := body_crashed_iff.mp h
      exact ⟨n, .stop hline hempty, hroom⟩
    | case3 => cases h
    | case4 => cases h
    | case5 known s line more hline hfull next hheader ih =>
      obtain ⟨n, hbehind, hroom⟩ := ih h
      exact ⟨n, .header hline (Bool.eq_false_iff.mpr hfull) hheader hbehind, hroom⟩
  · rintro ⟨n, hannounces, hroom⟩
    induction hannounces with
    | stop htaken hempty =>
      rw [readAfter_of_line htaken, if_pos hempty]
      exact body_crashed_iff.mpr ⟨rfl, hroom⟩
    | header htaken hfull hheader _ ih =>
      rw [readAfter_of_line htaken, hfull, hheader]
      exact ih hroom

/-- A program dies of a stream whose headers give a length that there is no room for, and of no
other. -/
theorem read_crashed_iff :
    read room s = .crashed rest ↔ ∃ n, Announces none s n rest ∧ room < n :=
  readAfter_crashed_iff

end Announcing

/-! ## Reading a whole stream -/

/-- How the reads of a stream end: at its end, or with the program dying. -/
inductive Ending where
  | reported
  | crashed
  deriving DecidableEq, Repr

/-- What the reads of a stream come to, one after another, and how they end. -/
inductive Reads (room : Nat) : Bytes → List (Except Fault Bytes) → Ending → Prop
  | ended {s : Bytes} (h : read room s = .ended) : Reads room s [] .reported
  | crashed {s rest : Bytes} (h : read room s = .crashed rest) : Reads room s [] .crashed
  | fault {s rest : Bytes} {f : Fault} {rs : List (Except Fault Bytes)} {e : Ending}
      (h : read room s = .fault f rest) (hrest : Reads room rest rs e) :
      Reads room s (.error f :: rs) e
  | message {s body rest : Bytes} {rs : List (Except Fault Bytes)} {e : Ending}
      (h : read room s = .message body rest) (hrest : Reads room rest rs e) :
      Reads room s (.ok body :: rs) e

/-- The reads of some frames, and of a stream behind them. -/
theorem reads_of_frames {room : Nat} {bs : List Bytes}
    (h : ∀ b ∈ bs, b.length < 0x8000000000000000 ∧ b.length ≤ room) {rest : Bytes}
    {rs : List (Except Fault Bytes)} {e : Ending} (hrest : Reads room rest rs e) :
    Reads room (bs.flatMap write ++ rest) (bs.map .ok ++ rs) e := by
  induction bs with
  | nil => exact hrest
  | cons b bs ih =>
    obtain ⟨⟨hb, hroom⟩, hbs⟩ := List.forall_mem_cons.mp h
    rw [List.flatMap_cons, List.append_assoc]
    refine .message ?_ (ih hbs)
    rw [read_write room hb, if_neg (Nat.not_lt.mpr hroom)]

theorem reads_nil (room : Nat) : Reads room [] [] .reported := .ended (by rw [read, readAfter]; rfl)

/-- The reads of a stream end, since each takes at least one byte. -/
theorem exists_reads (room : Nat) (s : Bytes) :
    ∃ rs e, Reads room s rs e ∧ rs.length ≤ s.length := by
  cases hread : read room s with
  | ended => exact ⟨[], .reported, .ended hread, Nat.zero_le _⟩
  | crashed rest => exact ⟨[], .crashed, .crashed hread, Nat.zero_le _⟩
  | fault f rest =>
    have hlt := rest_lt_of_fault hread
    obtain ⟨rs, e, hrs, hle⟩ := exists_reads room rest
    exact ⟨.error f :: rs, e, .fault hread hrs, Nat.lt_of_le_of_lt hle hlt⟩
  | message b rest =>
    have hlt := rest_lt_of_message hread
    obtain ⟨rs, e, hrs, hle⟩ := exists_reads room rest
    exact ⟨.ok b :: rs, e, .message hread hrs, Nat.lt_of_le_of_lt hle hlt⟩
termination_by s.length

/-- What a run of the server reports where its reads end. -/
def Ending.fault? : Ending → Option Session.RunFault
  | .reported => none
  | .crashed => some .crashed

end Frame

/-- What a session does about the reads of a stream, one after another, until it exits. -/
def Session.handle (s : Session) (e : Frame.Ending) :
    List (Except Frame.Fault Bytes) → Session × List Outgoing × Option RunFault
  | [] => (s, [], e.fault?)
  | .error f :: rs =>
    let (s, more, fault) := s.handle e rs
    (s, .response none (.failed .parseError f.message) :: more, fault)
  | .ok body :: rs =>
    let o := s.receive body
    if o.exited then (o.session, o.sent, none)
    else
      let (s, more, fault) := o.session.handle e rs
      (s, o.sent ++ more, fault)

/-- A session is served by one read after another. -/
theorem Session.serve_eq (s : Session) {room : Nat} {input : Bytes}
    {rs : List (Except Frame.Fault Bytes)} {e : Frame.Ending} (h : Frame.Reads room input rs e) :
    s.serve room input = s.handle e rs := by
  induction h generalizing s with
  | ended h => rw [Session.serve.eq_def, h]; rfl
  | crashed h => rw [Session.serve.eq_def, h]; rfl
  | fault h _ ih => rw [Session.serve.eq_def, h]; simp only [ih]; rfl
  | message h _ ih => rw [Session.serve.eq_def, h]; simp only [ih]; rfl

/-- Frames are read back one after another and then the end is reported. No byte string of the
machine has more than `room` bytes, so neither has a body that was written on it; of a frame from
elsewhere with a longer body the program dies. On any stream a read reports the end or takes
something, and the program dies exactly where the headers give a length that there is no room for.
So a session that is served reads finitely often. -/
theorem frames_read_back (room : Nat) :
    (∀ bs : List Bytes, (∀ b ∈ bs, b.length < 0x8000000000000000) → (∀ b ∈ bs, b.length ≤ room) →
      Frame.Reads room (bs.flatMap Frame.write) (bs.map .ok) .reported) ∧
    (∀ (bs : List Bytes) (b rest : Bytes),
      (∀ a ∈ bs, a.length < 0x8000000000000000) → (∀ a ∈ bs, a.length ≤ room) →
      b.length < 0x8000000000000000 → room < b.length →
      Frame.Reads room (bs.flatMap Frame.write ++ (Frame.write b ++ rest)) (bs.map .ok)
        .crashed) ∧
    (∀ s : Bytes, Frame.read room s = .ended ∨
      ∃ taken rest, (Frame.read room s).rest? = some rest ∧ taken ≠ [] ∧ s = taken ++ rest) ∧
    (∀ s rest : Bytes, Frame.read room s = .crashed rest ↔
      ∃ n, Frame.Announces none s n rest ∧ room < n) ∧
    ∀ input : Bytes, ∃ rs e, Frame.Reads room input rs e ∧ rs.length ≤ input.length ∧
      ∀ session : Session, session.serve room input = session.handle e rs := by
  refine ⟨fun bs hshort hroom => ?_, fun bs b rest hshort hroom hb hlong => ?_, fun s => ?_,
    fun s rest => Frame.read_crashed_iff, fun input => ?_⟩
  · have hreads := Frame.reads_of_frames (fun b hb => ⟨hshort b hb, hroom b hb⟩)
      (Frame.reads_nil room)
    rwa [List.append_nil, List.append_nil] at hreads
  · have hcrash : Frame.Reads room (Frame.write b ++ rest) [] .crashed :=
      .crashed ((Frame.read_write room hb rest).trans (if_pos hlong))
    have hreads := Frame.reads_of_frames (fun a ha => ⟨hshort a ha, hroom a ha⟩) hcrash
    rwa [List.append_nil] at hreads
  · cases hrest : (Frame.read room s).rest? with
    | none =>
      refine .inl ?_
      cases hread : Frame.read room s with
      | ended => rfl
      | fault | message | crashed => rw [hread] at hrest; cases hrest
    | some rest =>
      obtain ⟨t, ht, hs⟩ := Frame.rest_of_read hrest
      exact .inr ⟨t, rest, rfl, ht, hs⟩
  · obtain ⟨rs, e, hrs, hle⟩ := Frame.exists_reads room input
    exact ⟨rs, e, hrs, hle, fun session => session.serve_eq hrs⟩

/-- A body that looks like a header, of 21 bytes, and one that is empty. Where there is room for one
byte less, the program dies of the first, and nowhere is there room for a length of 63 bits. -/
theorem frames_read_back_headerLike :
    (∀ b ∈ [utf8 "Content-Length: 7\r\n\r\n", []], b.length < 0x8000000000000000) ∧
    Frame.Reads 21 ([utf8 "Content-Length: 7\r\n\r\n", []].flatMap Frame.write)
      [.ok (utf8 "Content-Length: 7\r\n\r\n"), .ok []] .reported ∧
    Frame.Reads 20 (Frame.write (utf8 "Content-Length: 7\r\n\r\n") ++ []) [] .crashed ∧
    Frame.read Bytes.longest (utf8 "Content-Length: 9223372036854775807\r\n\r\n") =
      .crashed [] :=
  have hshort : ∀ b ∈ [utf8 "Content-Length: 7\r\n\r\n", []],
      b.length < 0x8000000000000000 := by decide
  ⟨hshort, (frames_read_back 21).1 _ hshort (by decide),
    (frames_read_back 20).2.1 [] _ [] nofun nofun (hshort _ List.mem_cons_self) (by decide),
    by decide +kernel⟩

end ThriftLayout
