import ThriftLayout.Layout.Collection
import ThriftLayout.Proofs.Bounds.Access
import ThriftLayout.Proofs.Layout.Scanning

/-!
# Cutting lines within bounds

A line is cut at places that a scan of it finds, and a place that was not found is kept as a
negative number. Each scan is followed byte by byte: what it finds lies inside the line, and it
comes to what the recursion over the bytes comes to.

Results:

* `splitLineComment_eq`, `splitTerminator_eq`, `splitAnnot_eq`: the parts of a line.
* `parts_eq`, `splitDefault_eq`, `splitTypeAndName_eq`: members and their parts.
* `braces_eq`, `isCollection_eq`, `nestingDelta_eq`: braces, brackets and how deep they nest.
-/
namespace ThriftLayout

/-- A group that is found ends with a parenthesis, so the text does if the group ends it. -/
theorem lastGroup?_last {s : Bytes} {start stop : Nat}
    (h : lastGroup? s = some (some (start, stop))) (hstop : stop + 1 = s.length) :
    s.getLast? = some Ascii.rparen := by
  -- A group that is not known yet closes at a parenthesis of the rest of the text.
  have hgo : ∀ (rest : Bytes) (q : Quote) (i : Nat) (opened : List Nat)
      (found : Option (Nat × Nat)),
      lastGroup?.go q i opened found rest = some (some (start, stop)) →
      found = some (start, stop) ∨ i ≤ stop ∧ rest[stop - i]? = some Ascii.rparen := by
    intro rest
    induction rest with
    | nil =>
      intro q i opened found hgo
      unfold lastGroup?.go at hgo
      split at hgo
      · exact .inl (by simpa using hgo)
      · simp at hgo
    | cons b rest ih =>
      intro q i opened found hgo
      have hshift : ∀ {q opened found},
          lastGroup?.go q (i + 1) opened found rest = some (some (start, stop)) →
          found = some (start, stop) ∨
            i ≤ stop ∧ (b :: rest)[stop - i]? = some Ascii.rparen := by
        intro q opened found hgo
        refine (ih q (i + 1) opened found hgo).imp_right ?_
        rintro ⟨hi, hlast⟩
        refine ⟨by omega, ?_⟩
        rwa [show stop - i = stop - (i + 1) + 1 by omega, List.getElem?_cons_succ]
      unfold lastGroup?.go at hgo
      split at hgo
      · exact hshift hgo
      split at hgo
      · exact hshift hgo
      split at hgo
      · rename_i hclose
        split at hgo
        · simp at hgo
        · rcases hshift hgo with hnow | hlater
          · obtain ⟨-, rfl⟩ : _ ∧ i = stop := by simpa using hnow
            exact .inr ⟨Nat.le_refl i, by simpa using hclose⟩
          · exact .inr hlater
        · exact hshift hgo
      · exact hshift hgo
  rcases hgo s {} 0 [] none h with hnone | ⟨-, hlast⟩
  · simp at hnone
  · rw [List.getLast?_eq_getElem?, ← hlast]
    congr 1
    omega

namespace Guarded

/-- A place that may be missing. -/
def offset : Option Nat → Int
  | some i => i
  | none => -1

/-! ## Comments, terminators and annotations -/

/-- One turn of the search for a line comment. -/
def commentTurn (line : Bytes) (i : Nat) (b : UInt8) (q : Quote) :
    Guarded (Turn Quote (Bytes × Bytes)) := do
  if q.holds b then return .next (i + 1) (q.step b)
  else
    let doubled ← isAt line (i + 1) (· == Ascii.slash)
    if b == Ascii.hash || (b == Ascii.slash && doubled) then
      return .done (← front line i, ← back line i)
    else return .next (i + 1) q

def splitLineComment (line : Bytes) : Guarded (Bytes × Bytes) :=
  scan line (commentTurn line) (fun _ => pure (line, [])) 0 {}

theorem splitLineComment_eq (line : Bytes) :
    splitLineComment line = pure (ThriftLayout.splitLineComment line) := by
  refine scan_eq (a := []) (fun a rest q r =>
    r = (a ++ (splitLineComment.go q rest).1, (splitLineComment.go q rest).2)) ?_ ?_ rfl rfl
  · rintro q _ rfl
    simp [splitLineComment.go]
  · rintro a b c q _ rfl rfl
    have hslash : (c.head? == some Ascii.slash) =
        ((c.head?.map (· == Ascii.slash)).getD false) := by cases c <;> simp
    rw [splitLineComment.go]
    unfold commentTurn
    simp only [isAt_succ, pure_bind, front_append, back_append, hslash]
    cases hq : q.holds b with
    | true => exact .one (by simp)
    | false =>
      rw [Quote.step_of_not_holds hq]
      generalize hmark : (b == Ascii.hash || _) = mark
      cases mark with
      | true =>
        simp only [Bool.not_false, Bool.and_self, if_true, List.append_nil]
        exact .done
      | false => exact .one (by simp)

def splitTerminator (s : Bytes) : Guarded (Bytes × Bytes) := do
  let t := Blank.trim s
  if 0 < t.length then
    if Ascii.isSeparator (← item t (t.length - 1)) then
      return (Blank.trim (← front t (t.length - 1)), ← back t (t.length - 1))
  return (t, [])

theorem splitTerminator_eq (s : Bytes) :
    splitTerminator s = pure (ThriftLayout.splitTerminator s) := by
  unfold splitTerminator ThriftLayout.splitTerminator
  generalize Blank.trim s = t
  rcases List.eq_nil_or_concat t with rfl | ⟨init, b, rfl⟩
  · rfl
  · have hlast : ((init ++ [b]).length : Int) - 1 = init.length := by simp
    simp only [List.concat_eq_append, hlast, item_append, pure_bind, front_append, back_append]
    cases hb : Ascii.isSeparator b <;> simp [hb]

/-- What the search for the last group in parentheses has found. -/
structure Groups where
  quote : Quote := {}
  /-- Where the open groups start, the innermost last. -/
  opened : List Nat := []
  start : Int := -1
  stop : Int := -1

/-- One turn of the search for the last group. It is over when a group closes that is not open. -/
def groupTurn (i : Nat) (b : UInt8) (g : Groups) : Guarded (Turn Groups (Option Int)) := do
  if g.quote.holds b then return .next (i + 1) { g with quote := g.quote.step b }
  else if b == Ascii.lparen then return .next (i + 1) { g with opened := g.opened ++ [i] }
  else if b == Ascii.rparen then
    if g.opened.length = 0 then return .done none
    else
      let start ← item g.opened (g.opened.length - 1)
      let opened ← front g.opened (g.opened.length - 1)
      return .next (i + 1) <|
        if opened.length = 0 then { g with opened := opened, start := start, stop := i }
        else { g with opened := opened }
  else return .next (i + 1) g

def groupStart? (t : Bytes) : Guarded (Option Int) :=
  scan t groupTurn (fun g => pure <|
    if g.opened.length ≠ 0 || g.quote.open?.isSome || g.stop ≠ t.length - 1 then none
    else some g.start) 0 {}

def splitAnnot (s : Bytes) : Guarded (Bytes × Bytes) := do
  let t := Blank.trim s
  if t.getLast? ≠ some Ascii.rparen then return (s, [])
  match ← groupStart? t with
  | none => return (s, [])
  | some start =>
    let base := Blank.trim (← front t start)
    if base.isEmpty then return (s, []) else return (base, ← back t start)

/-- The start of a group that was found, if it ends the text. -/
def endGroup? (t : Bytes) : Option (Option (Nat × Nat)) → Option Int
  | some (some (start, stop)) => if stop + 1 = t.length then some start else none
  | _ => none

theorem groupStart?_eq {t : Bytes} (h : t ≠ []) :
    groupStart? t = pure (endGroup? t (lastGroup? t)) := by
  have hpos : 0 < t.length := List.length_pos_iff.mpr h
  refine scan_eq (a := []) (fun a rest g r => ∃ found,
    g.start = offset (found.map (·.1)) ∧ g.stop = offset (found.map (·.2)) ∧
    r = endGroup? t (lastGroup?.go g.quote a.length g.opened.reverse found rest)) ?_ ?_ rfl
    ⟨none, rfl, rfl, rfl⟩
  · rintro g _ ⟨found, hstart, hstop, rfl⟩
    rw [lastGroup?.go, hstart, hstop]
    congr 1
    rcases List.eq_nil_or_concat g.opened with hopened | ⟨outer, k, hopened⟩
    · cases hquote : g.quote.open? with
      | some c => simp [endGroup?, hopened]
      | none =>
        cases found with
        | none =>
          have hend : ¬ offset none = (t.length : Int) - 1 := by simp only [offset]; omega
          simp [endGroup?, hopened, hend]
        | some g =>
          have hend : (g.2 : Int) = t.length - 1 ↔ g.2 + 1 = t.length := by omega
          simp [endGroup?, offset, hopened, hend]
    · simp [endGroup?, hopened]
  · rintro a b c g _ rfl ⟨found, hstart, hstop, rfl⟩
    rw [lastGroup?.go.eq_def]
    unfold groupTurn
    dsimp only
    split
    · exact .one ⟨found, hstart, hstop, by simp⟩
    split
    · exact .one ⟨found, hstart, hstop, by simp⟩
    split
    · rcases List.eq_nil_or_concat g.opened with hopened | ⟨outer, k, hopened⟩
      · rw [if_pos (by simp [hopened])]
        simp only [hopened]
        exact .done
      · have hmore : ¬ g.opened.length = 0 := by simp [hopened]
        have hlast : ((outer ++ [k]).length : Int) - 1 = outer.length := by simp
        rw [if_neg hmore]
        simp only [hopened, List.concat_eq_append, hlast, item_append, front_append, pure_bind]
        rcases List.eq_nil_or_concat outer with rfl | ⟨outer, l, rfl⟩
        · exact .one ⟨some (k, a.length), rfl, rfl, by simp⟩
        · simp only [List.concat_eq_append, List.reverse_append, List.reverse_singleton,
            List.singleton_append]
          have hdeep : ¬ (outer ++ [l]).length = 0 := by simp
          rw [if_neg hdeep]
          exact .one ⟨found, hstart, hstop, by simp⟩
    · exact .one ⟨found, hstart, hstop, by simp⟩

theorem splitAnnot_eq (s : Bytes) : splitAnnot s = pure (ThriftLayout.splitAnnot s) := by
  unfold splitAnnot ThriftLayout.splitAnnot
  generalize Blank.trim s = t
  dsimp only
  by_cases hlast : t.getLast? = some Ascii.rparen
  · have hne : t ≠ [] := by rintro rfl; simp at hlast
    rw [if_neg (not_not_intro hlast), groupStart?_eq hne, pure_bind]
    rcases hgroup : lastGroup? t with _ | _ | ⟨start, stop⟩
    · rfl
    · rfl
    · obtain ⟨r, hr⟩ := lastGroup?_head hgroup
      have hstart : start ≤ t.length := by
        refine Nat.le_of_not_lt fun hlt => ?_
        simp [List.drop_eq_nil_of_le (Nat.le_of_lt hlt)] at hr
      by_cases hstop : stop + 1 = t.length
      · simp only [endGroup?, hstop, if_true, front_eq hstart, back_eq hstart, pure_bind]
        cases hbase : Blank.trim (t.take start) <;> simp
      · simp [endGroup?, hstop]
  · rw [if_pos hlast]
    rcases hgroup : lastGroup? t with _ | _ | ⟨start, stop⟩
    · rfl
    · rfl
    · dsimp only
      rw [if_neg]
      rintro ⟨hstop, -⟩
      exact hlast (lastGroup?_last hgroup hstop)

/-! ## Parts, defaults and names -/

/-- What the cutting of a text into parts has done: where the next part starts, and the parts. -/
structure Cuts where
  scan : Scan := {}
  start : Nat := 0
  parts : List Part := []

/-- The part from the last cut up to a place is added unless it is blank. -/
def Cuts.emit (s : Bytes) (c : Cuts) (i : Nat) (separator : Bytes) : Guarded (List Part) := do
  let text := Blank.trim (← slice s c.start i)
  return if text.isEmpty then c.parts else c.parts ++ [⟨text, separator⟩]

def partsTurn (s : Bytes) (i : Nat) (b : UInt8) (c : Cuts) :
    Guarded (Turn Cuts (List Part)) := do
  let next := { c with scan := c.scan.step b }
  if Ascii.isSeparator b && c.scan.isTop b then
    return .next (i + 1) { next with start := i + 1, parts := ← c.emit s i [b] }
  else return .next (i + 1) next

def parts (s : Bytes) : Guarded (List Part) :=
  scan s (partsTurn s) (fun c => c.emit s s.length []) 0 {}

/-- Parts without blanks around them, the blank ones left out. -/
def visible (ps : List Part) : List Part :=
  (ps.map fun p => { p with text := Blank.trim p.text }).filter (!·.text.isEmpty)

def before (text : Bytes) : List Part → List Part
  | [] => [⟨text, []⟩]
  | p :: ps => { p with text := text ++ p.text } :: ps

theorem before_before (a b : Bytes) (ps : List Part) :
    before a (before b ps) = before (a ++ b) ps := by
  cases ps <;> simp [before]

theorem segments_go_cons (state : Scan) (b : UInt8) (rest : Bytes) :
    segments.go state (b :: rest) =
      if Ascii.isSeparator b && state.isTop b then ⟨[], [b]⟩ :: segments.go (state.step b) rest
      else before [b] (segments.go (state.step b) rest) := by
  rw [segments.go]
  split
  · rfl
  · cases segments.go (state.step b) rest <;> rfl

theorem visible_append (ps qs : List Part) : visible (ps ++ qs) = visible ps ++ visible qs := by
  simp [visible]

theorem visible_before_nil (ps : List Part) : visible (before [] ps) = visible ps := by
  cases ps with
  | nil => simp [before, visible, Blank.trim_nil]
  | cons p ps => rfl

/-- A part is cut off that lies between the start and the place of the scan. -/
theorem Cuts.emit_eq {pre : Bytes} {c : Cuts} (h : c.start = pre.length)
    (text rest separator : Bytes) :
    c.emit (pre ++ text ++ rest) (pre ++ text).length separator =
      pure (c.parts ++ visible [⟨text, separator⟩]) := by
  rw [Cuts.emit, h, slice_append, pure_bind]
  cases htext : Blank.trim text <;> simp [visible, htext]

theorem parts_eq (s : Bytes) : parts s = pure (ThriftLayout.parts s) := by
  refine scan_eq (a := []) (fun a rest c r => ∃ pre text, a = pre ++ text ∧ c.start = pre.length ∧
    r = c.parts ++ visible (before text (segments.go c.scan rest))) ?_ ?_ rfl ⟨[], [], rfl, rfl, ?_⟩
  · rintro c _ ⟨pre, text, rfl, hstart, rfl⟩
    have hemit := Cuts.emit_eq hstart text [] []
    rw [List.append_nil] at hemit
    rw [hemit, segments.go, before, List.append_nil]
  · rintro a b c d _ rfl ⟨pre, text, rfl, hstart, rfl⟩
    rw [segments_go_cons]
    unfold partsTurn
    dsimp only
    split
    · rw [Cuts.emit_eq hstart, pure_bind]
      refine .one ⟨pre ++ text ++ [b], [], by simp, by simp [Nat.add_assoc], ?_⟩
      have hcut := visible_append [⟨text, [b]⟩] (segments.go (d.scan.step b) c)
      rw [visible_before_nil]
      simpa [before] using hcut
    · exact .one ⟨pre, text ++ [b], by simp, hstart, by simp [before_before]⟩
  · rw [visible_before_nil]
    rfl

def splitDefault (s : Bytes) : Guarded (Bytes × Bytes) :=
  scan s (fun i b state => do
    if b == Ascii.equals && state.isTop b then
      return .done (Blank.trim (← front s i), Blank.trim (← back s (i + 1)))
    else return .next (i + 1) (state.step b)) (fun _ => pure (Blank.trim s, [])) 0 ({} : Scan)

theorem splitDefault_eq (s : Bytes) : splitDefault s = pure (ThriftLayout.splitDefault s) := by
  have hwhole : ThriftLayout.splitDefault s = ((splitDefault.go {} s).map fun p =>
      (Blank.trim p.1, Blank.trim p.2)).getD (Blank.trim s, []) := by
    unfold ThriftLayout.splitDefault
    cases splitDefault.go {} s <;> rfl
  refine scan_eq (a := []) (fun a rest state r => r = ((splitDefault.go state rest).map fun p =>
    (Blank.trim (a ++ p.1), Blank.trim p.2)).getD (Blank.trim s, [])) ?_ ?_ rfl hwhole
  · rintro state _ rfl
    rfl
  · rintro a b c state _ rfl rfl
    rw [splitDefault.go]
    have hback : back (a ++ b :: c) ((a.length : Int) + 1) = pure c := by
      have hafter := back_append (a ++ [b]) c
      simpa using hafter
    cases hmark : b == Ascii.equals && state.isTop b with
    | true =>
      simp only [if_true, front_append, hback, pure_bind, Option.map_some, Option.getD_some,
        List.append_nil]
      exact .done
    | false =>
      refine .one ?_
      cases splitDefault.go (state.step b) c <;> simp

/-- The place of the last blank outside all literals and brackets. -/
def lastTopBlank (s : Bytes) : Guarded Int :=
  scan s (fun i b (state : Scan × Int) => pure <| .next (i + 1)
    (state.1.step b, if Ascii.isBlank b && state.1.isTop b then i else state.2))
    (fun state => pure state.2) 0 ({}, -1)

theorem lastTopBlank_eq (s : Bytes) : lastTopBlank s = pure (offset (lastTopBlank? s)) := by
  refine scan_eq (a := []) (fun a rest state r => ∃ found, state.2 = offset found ∧
    r = offset (lastTopBlank?.go state.1 a.length found rest)) ?_ ?_ rfl ⟨none, rfl, rfl⟩
  · rintro state _ ⟨found, hfound, rfl⟩
    rw [lastTopBlank?.go, hfound]
  · rintro a b c state _ rfl ⟨found, hfound, rfl⟩
    rw [lastTopBlank?.go]
    refine .one ⟨if Ascii.isBlank b && state.1.isTop b then some a.length else found, ?_, by simp⟩
    split
    · rfl
    · exact hfound

/-- Whether the bytes from a place on continue an identifier. -/
def isIdentifierFrom (s : Bytes) (i : Nat) : Guarded Bool :=
  scan s (fun i b _ => pure <| if Ascii.isIdentPart b then .next (i + 1) () else .done false)
    (fun _ => pure true) i ()

theorem isIdentifierFrom_eq (a s : Bytes) :
    isIdentifierFrom (a ++ s) a.length = pure (s.all Ascii.isIdentPart) := by
  refine scan_eq (fun _ rest _ r => r = rest.all Ascii.isIdentPart) (by simp) ?_ rfl rfl
  rintro a b c _ _ - rfl
  cases hb : Ascii.isIdentPart b with
  | true => exact .one (by simp [hb])
  | false =>
    rw [List.all_cons, hb]
    exact .done

def isIdentifier (s : Bytes) : Guarded Bool := do
  if s.isEmpty then return false
  else if !Ascii.isIdentStart (← item s 0) then return false
  else isIdentifierFrom s 1

theorem isIdentifier_eq (s : Bytes) : isIdentifier s = pure (ThriftLayout.isIdentifier s) := by
  cases s with
  | nil => rfl
  | cons b s =>
    have hrest : isIdentifierFrom (b :: s) 1 = _ := isIdentifierFrom_eq [b] s
    unfold isIdentifier ThriftLayout.isIdentifier
    rw [item_zero, pure_bind, hrest]
    dsimp only
    cases Ascii.isIdentStart b <;> rfl

def splitTypeAndName (s : Bytes) : Guarded (Option (Bytes × Bytes)) := do
  let cut ← lastTopBlank s
  if cut < 0 then return none
  let type := Blank.trim (← front s cut)
  let name := Blank.trim (← back s (cut + 1))
  if type.isEmpty || name.isEmpty || !(← isIdentifier name) then return none
  else return some (type, name)

theorem splitTypeAndName_eq (s : Bytes) :
    splitTypeAndName s = pure (ThriftLayout.splitTypeAndName s) := by
  unfold splitTypeAndName ThriftLayout.splitTypeAndName
  rw [lastTopBlank_eq, pure_bind]
  cases hcut : lastTopBlank? s with
  | none => rfl
  | some cut =>
    obtain ⟨b, -, hs⟩ := lastTopBlank?_eq hcut
    have hlength : cut < s.length := by
      have := congrArg List.length hs
      simp only [List.length_append, List.length_take, List.length_cons, List.length_drop] at this
      omega
    have hpos : ¬ offset (some cut) < 0 := by simp only [offset]; omega
    have hfront : front s (offset (some cut)) = pure (s.take cut) := front_eq (Nat.le_of_lt hlength)
    have hback : back s (offset (some cut) + 1) = pure (s.drop (cut + 1)) := back_eq hlength
    rw [if_neg hpos, hfront, pure_bind, hback, pure_bind]
    simp only [isIdentifier_eq, pure_bind]
    -- An empty name is no identifier.
    cases hname : Blank.trim (s.drop (cut + 1)) with
    | nil => simp [ThriftLayout.isIdentifier]
    | cons c name =>
      rw [List.isEmpty_cons, Bool.or_false]
      split <;> rfl

/-! ## Counting -/

def sumCode (weight : UInt8 → Int) (s : Bytes) : Guarded Int :=
  scan s (fun i b (state : Quote × Int) => pure <| .next (i + 1) (state.1.step b,
    if state.1.holds b then state.2 else state.2 + weight b)) (fun state => pure state.2) 0 ({}, 0)

theorem sumCode_eq (weight : UInt8 → Int) (s : Bytes) :
    sumCode weight s = pure (ThriftLayout.sumCode weight s) := by
  refine scan_eq (a := [])
    (fun _ rest state r => r = state.2 + sumCode.go weight state.1 rest) ?_ ?_ rfl ?_
  · rintro state _ rfl
    rw [sumCode.go, Int.add_zero]
  · rintro a b c state _ - rfl
    rw [sumCode.go]
    refine .one ?_
    cases state.1.holds b
    · simp [Int.add_assoc]
    · simp
  · rw [Int.zero_add]
    rfl

def bracketDelta : Bytes → Guarded Int :=
  sumCode fun b =>
    if b == Ascii.lbrace || b == Ascii.lbracket then 1
    else if b == Ascii.rbrace || b == Ascii.rbracket then -1
    else 0

def parenDelta : Bytes → Guarded Int :=
  sumCode fun b => if b == Ascii.lparen then 1 else if b == Ascii.rparen then -1 else 0

def nestingDelta (s : Bytes) : Guarded Int := do return (← bracketDelta s) + (← parenDelta s)

theorem parenDelta_eq (s : Bytes) : parenDelta s = pure (ThriftLayout.parenDelta s) :=
  sumCode_eq _ s

theorem nestingDelta_eq (s : Bytes) : nestingDelta s = pure (ThriftLayout.nestingDelta s) := by
  rw [nestingDelta, bracketDelta, sumCode_eq, pure_bind, parenDelta_eq, pure_bind]
  rfl

/-- The places of the first opening and the last closing brace outside literals. -/
def braces (s : Bytes) : Guarded (Int × Int) :=
  scan s (fun i b (state : Quote × Int × Int) =>
    let (q, first, last) := state
    pure <| .next (i + 1) (q.step b,
      if q.holds b then (first, last)
      else if b == Ascii.lbrace then (if first < 0 then i else first, last)
      else if b == Ascii.rbrace then (first, i)
      else (first, last))) (fun state => pure state.2) 0 ({}, -1, -1)

theorem braces_eq (s : Bytes) : braces s =
    pure (offset (ThriftLayout.braces s).1, offset (ThriftLayout.braces s).2) := by
  refine scan_eq (a := []) (fun a rest state r => ∃ first last,
    state.2 = (offset first, offset last) ∧
    r = (offset (first <|> (braces.go state.1 a.length rest).1),
      offset ((braces.go state.1 a.length rest).2 <|> last))) ?_ ?_ rfl ⟨none, none, rfl, ?_⟩
  · rintro state _ ⟨first, last, hstate, rfl⟩
    rw [braces.go, hstate]
    simp
  · rintro a b c ⟨q, found⟩ _ rfl ⟨first, last, rfl, rfl⟩
    rw [braces.go]
    dsimp only
    split
    · exact .one ⟨first, last, rfl, by simp⟩
    split
    · refine .one ⟨first <|> some a.length, last, ?_, ?_⟩
      · cases first with
        | none => rfl
        | some k => simp [offset, show ¬ (k : Int) < 0 by omega]
      · cases first <;> simp
    split
    · refine .one ⟨first, some a.length, rfl, ?_⟩
      cases hlast : (braces.go (q.step b) (a.length + 1) c).2 <;> simp [hlast]
    · exact .one ⟨first, last, rfl, by simp⟩
  · simp [ThriftLayout.braces]

/-- Whether the outermost bracket closes at the last byte, and everything else is closed there. -/
def closesLast (val : Bytes) : Guarded Bool :=
  scan val (fun i b state =>
    let next := state.step b
    pure <|
      if !state.holds b && next.depth.brace == 0 && next.depth.bracket == 0 &&
          i < val.length - 1 then .done false
      else .next (i + 1) next)
    (fun state => pure (state.quote.open?.isNone && state.depth.isTop)) 0 ({} : Scan)

theorem closesLast_eq (val : Bytes) :
    closesLast val = pure (ThriftLayout.isCollection.closesLast {} val) := by
  refine scan_eq (a := [])
    (fun _ rest state r => r = ThriftLayout.isCollection.closesLast state rest) ?_ ?_ rfl rfl
  · rintro state _ rfl
    rw [ThriftLayout.isCollection.closesLast]
  · rintro a b c state _ rfl rfl
    have hlater : decide (a.length < (a ++ b :: c).length - 1) = !c.isEmpty := by
      cases c <;> simp
    rw [ThriftLayout.isCollection.closesLast, hlater]
    dsimp only
    split
    · exact .done
    · exact .one rfl

def isCollection (val : Bytes) : Guarded Bool := do
  if val.length < 2 then return false
  let first ← item val 0
  let last ← item val (val.length - 1)
  if (first == Ascii.lbracket && last == Ascii.rbracket) ||
      (first == Ascii.lbrace && last == Ascii.rbrace) then
    closesLast val
  else return false

theorem isCollection_eq (val : Bytes) :
    isCollection val = pure (ThriftLayout.isCollection val) := by
  unfold isCollection ThriftLayout.isCollection
  rcases val with _ | ⟨first, _ | ⟨second, val⟩⟩
  · rfl
  · rfl
  · obtain ⟨last, hlast⟩ : ∃ last, (first :: second :: val).getLast? = some last :=
      ⟨_, List.getLast?_eq_some_getLast (by simp)⟩
    have hlength : ¬ (first :: second :: val).length < 2 := by simp
    rw [if_neg hlength, item_zero, pure_bind, item_last hlast, pure_bind, hlast, closesLast_eq]
    dsimp only
    generalize (first == Ascii.lbracket && last == Ascii.rbracket ||
      first == Ascii.lbrace && last == Ascii.rbrace) = matched
    cases matched <;> rfl

end Guarded

end ThriftLayout
