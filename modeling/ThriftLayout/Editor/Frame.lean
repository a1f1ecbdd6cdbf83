import ThriftLayout.Text.Blank
import ThriftLayout.Text.Integer
import ThriftLayout.Text.Quoted

/-!
# Message frames

Messages travel as frames: header lines, one of which gives the length of the body, an empty line,
and the body. `read` takes the first frame off a stream.

Room for the body is made before the first byte of it is read, so a header can ask for more than
there is. No reader catches that panic. How long a body may be depends on the machine, and is a
parameter of `read`.

Results: whatever is read, less of the stream is left (`rest_lt_of_fault`, `rest_lt_of_message`).
-/
namespace ThriftLayout.Frame

/-- Why a frame cannot be read. -/
inductive Fault where
  /-- A header line without a colon. -/
  | header (line : Bytes)
  /-- A length that is no number or is negative. -/
  | length (value : Bytes)
  | missingLength
  /-- The stream ends inside the body. -/
  | cut
  deriving DecidableEq, Repr

def Fault.message : Fault → Bytes
  | .header line => utf8 "invalid header line " ++ Quoted.text line
  | .length value => utf8 "invalid Content-Length " ++ Quoted.text value
  | .missingLength => utf8 "missing Content-Length"
  | .cut => utf8 "unexpected EOF"

/-- What was read from a stream, and what is left of it. -/
inductive Step where
  /-- Nothing, or nothing but headers or the start of one. -/
  | ended
  | fault (f : Fault) (rest : Bytes)
  | message (body rest : Bytes)
  /-- The headers, which give a length that there is no room for. -/
  | crashed (rest : Bytes)
  deriving DecidableEq, Repr

/-- The first line with its newline, and the rest. -/
def takeLine? : Bytes → Option (Bytes × Bytes)
  | [] => none
  | b :: s =>
    if b == Ascii.newline then some ([b], s)
    else (takeLine? s).map fun (line, rest) => (b :: line, rest)

theorem rest_lt_of_takeLine? {s line rest : Bytes} (h : takeLine? s = some (line, rest)) :
    rest.length < s.length := by
  induction s generalizing line with
  | nil => simp [takeLine?] at h
  | cons b s ih =>
    simp only [takeLine?] at h
    split at h
    · simp only [Option.some.injEq, Prod.mk.injEq] at h
      simp [h.2]
    · obtain ⟨⟨l, r⟩, hl, he⟩ := Option.map_eq_some_iff.1 h
      simp only [Prod.mk.injEq] at he
      obtain ⟨_, rfl⟩ := he
      have := ih hl
      simp only [List.length_cons]
      omega

/-- The number at the front of a length: a sign and digits, whatever follows them. A negative length
is none, and so is one that a machine integer cannot hold. -/
def lengthOf? (value : Bytes) : Option Nat :=
  let v := Blank.trim value
  let (_, digits) := Integer.sign v
  let signs := v.length - digits.length
  let n := (digits.takeWhile Ascii.isDigit).length
  match Integer.decimal? (v.take (signs + n)) with
  | some k => if 0 ≤ k then some k.toNat else none
  | none => none

/-- Whether a header gives the length of the body. -/
def namesLength (name : Bytes) : Bool :=
  Bytes.lowerAscii (Blank.trim name) == utf8 "content-length"

/-- What a header line says about the length, given what was known before it. Of several lengths the
last counts; other headers are looked at only for their colon. -/
def header (known : Option Nat) (line : Bytes) : Except Fault (Option Nat) :=
  let line := Bytes.dropRightWhile (fun b => b == Ascii.carriageReturn || b == Ascii.newline) line
  match Bytes.splitAtFirst? [Ascii.colon] line with
  | none => .error (.header line)
  | some (name, value) =>
    if namesLength name then
      match lengthOf? value with
      | some n => .ok (some n)
      | none => .error (.length value)
    else .ok known

/-- Whether a line ends the headers. -/
def isEmptyLine (line : Bytes) : Bool :=
  line == [Ascii.newline] || line == [Ascii.carriageReturn, Ascii.newline]

/-- Takes a body of `n` bytes off the stream, where a body can have `room` bytes. Room is made
first, so a length beyond it crashes also when the stream is at its end. A stream that ends right
behind the headers ends in good order; one that ends inside the body is at fault. -/
def body (room n : Nat) (s : Bytes) : Step :=
  if room < n then .crashed s
  else if n ≤ s.length then .message (s.take n) (s.drop n)
  else if s.isEmpty then .ended
  else .fault .cut []

/-- Reads header lines and the body after them. A line that cannot be read leaves the stream behind
that line, and what follows is taken as the start of a new frame. -/
def readAfter (room : Nat) (known : Option Nat) (s : Bytes) : Step :=
  match _h : takeLine? s with
  | none => .ended
  | some (line, rest) =>
    if isEmptyLine line then
      match known with
      | some n => body room n rest
      | none => .fault .missingLength rest
    else
      match header known line with
      | .error f => .fault f rest
      | .ok known => readAfter room known rest
termination_by s.length
decreasing_by exact rest_lt_of_takeLine? _h

def read (room : Nat) (s : Bytes) : Step := readAfter room none s

def write (b : Bytes) : Bytes :=
  utf8 "Content-Length: " ++ Bytes.ofNat b.length ++ utf8 "\r\n\r\n" ++ b

/-- What is left of the stream after a step that did not find the end. -/
def Step.rest? : Step → Option Bytes
  | .ended => none
  | .fault _ rest | .message _ rest | .crashed rest => some rest

theorem rest_le_of_body {room n : Nat} {s r : Bytes} (h : (body room n s).rest? = some r) :
    r.length ≤ s.length := by
  unfold body at h
  split at h
  · simp only [Step.rest?, Option.some.injEq] at h
    simp [← h]
  split at h
  · simp only [Step.rest?, Option.some.injEq] at h
    simp [← h]
  · split at h
    · simp [Step.rest?] at h
    · simp only [Step.rest?, Option.some.injEq] at h
      simp [← h]

theorem rest_lt_of_readAfter {room : Nat} {known : Option Nat} {s r : Bytes}
    (h : (readAfter room known s).rest? = some r) : r.length < s.length := by
  fun_induction readAfter room known s with
  | case1 => simp [Step.rest?] at h
  | case2 s line rest hl _ n =>
    have := rest_le_of_body h
    have := rest_lt_of_takeLine? hl
    omega
  | case3 s line rest hl _ =>
    simp only [Step.rest?, Option.some.injEq] at h
    rw [← h]
    exact rest_lt_of_takeLine? hl
  | case4 known s line rest hl _ f =>
    simp only [Step.rest?, Option.some.injEq] at h
    rw [← h]
    exact rest_lt_of_takeLine? hl
  | case5 known s line rest hl _ known' _ ih =>
    have := ih h
    have := rest_lt_of_takeLine? hl
    omega

theorem rest_lt_of_fault {room : Nat} {s rest : Bytes} {f : Fault}
    (h : read room s = .fault f rest) :
    rest.length < s.length :=
  rest_lt_of_readAfter (by rw [read] at h; rw [h]; rfl)

theorem rest_lt_of_message {room : Nat} {s b rest : Bytes}
    (h : read room s = .message b rest) :
    rest.length < s.length :=
  rest_lt_of_readAfter (by rw [read] at h; rw [h]; rfl)

end ThriftLayout.Frame
