import ThriftLayout.Layout.State
import ThriftLayout.Proofs.Bounds.Blocks
import ThriftLayout.Proofs.Layout.Replaying

/-!
# Lines of blocks within bounds

A member may go on over the lines after its first, up to a line that a declaration names. The
declarations of a source may end outside the lines that are laid out, so that line is brought back
among them first. Code that follows the opening brace on a header line has no number at all.

Results:

* `settle_eq`, `play_eq`: which batches a line ends, and what is written then.
* `multiline_eq`: a member over several lines.
* `bodyLine_eq`: a line of any block, with how many lines it takes.
-/
namespace ThriftLayout.Guarded

open Layout (State Move CodeLine)

/-! ## Lines -/

def CodeLine.ofLine (line : Bytes) : Guarded CodeLine := do
  let t := Blank.trim line
  let (code, comment) ← splitLineComment t
  return ⟨t, Blank.trim code, Blank.trim comment⟩

theorem CodeLine.ofLine_eq (line : Bytes) :
    CodeLine.ofLine line = pure (Layout.CodeLine.ofLine line) := by
  rw [ofLine, splitLineComment_eq, pure_bind]
  rfl

def startsWithWord (word code : Bytes) : Guarded Bool := do
  match Bytes.after? word code with
  | some rest => if rest.isEmpty then return true else return Ascii.isBlank (← item rest 0)
  | none => return false

theorem startsWithWord_eq (word code : Bytes) :
    startsWithWord word code = pure (Pattern.startsWithWord word code) := by
  unfold startsWithWord Pattern.startsWithWord
  rcases Bytes.after? word code with _ | _ | ⟨b, rest⟩
  · rfl
  · rfl
  · simp

def isFieldLine (ix : Index) (line : Nat) (code : Bytes) : Guarded Bool := do
  if (Layout.declField? ix (some line) code).isSome || FieldRecord.looksLike code then return true
  else return (← splitMembers? (some .struct) code).isSome

def isMemberLine (ix : Index) (line : Nat) (code : Bytes) : Guarded Bool := do
  if (Layout.declMember? ix (some line) code).isSome || (← MemberRecord.looksLike code) then
    return true
  else return (← splitMembers? (some .enum) code).isSome

theorem isFieldLine_eq (ix : Index) (line : Nat) (code : Bytes) :
    isFieldLine ix line code = pure (Layout.isFieldLine ix line code) := by
  unfold isFieldLine Layout.isFieldLine
  rw [splitMembers?_eq, pure_bind]
  generalize ((Layout.declField? ix (some line) code).isSome || _) = known
  cases known <;> rfl

theorem isMemberLine_eq (ix : Index) (line : Nat) (code : Bytes) :
    isMemberLine ix line code = pure (Layout.isMemberLine ix line code) := by
  unfold isMemberLine Layout.isMemberLine
  rw [MemberRecord.looksLike_eq, pure_bind, splitMembers?_eq, pure_bind]
  generalize ((Layout.declMember? ix (some line) code).isSome || _) = known
  cases known <;> rfl

/-- The batches that a line does not continue are written. -/
def settle (ix : Index) (line : Nat) (code : Bytes) (s : State) : Guarded (List Move) := do
  let fields := !s.fields.isEmpty && !(← isFieldLine ix line code) && !isCloser code
  let members := !s.members.isEmpty && !(← isMemberLine ix line code) && !isCloser code
  let consts := s.inConsts && !(← startsWithWord (utf8 "const") code)
  return (if fields then [.flushFields] else []) ++ (if members then [.flushMembers] else []) ++
    if consts then [.flushConsts] else []

theorem settle_eq (ix : Index) (line : Nat) (code : Bytes) (s : State) :
    settle ix line code s = pure (Layout.settle ix line code s) := by
  unfold settle
  rw [isFieldLine_eq, pure_bind, isMemberLine_eq, pure_bind, startsWithWord_eq, pure_bind]
  rfl

/-! ## Moves -/

def emit (o : Options) (level : Nat) (line : Bytes) : Guarded Move := do
  return .write (o.indentFault? level) [(← indent o level) ++ line]

def closer (o : Options) (level : Nat) (l : CodeLine) : Guarded Move := do
  emit o level (← closerLine (← back (Blank.trim l.code) 1) l.comment)

def play (o : Options) (s : State) : Move → Guarded State
  | .flushFields => do
    let fault := if s.fields.isEmpty then none else o.indentFault? s.indent
    return { s.writeOr fault (← FieldRecord.render o s.indent s.fields) with fields := [] }
  | .flushMembers => do
    let fault := if s.members.isEmpty then none else o.indentFault? s.indent
    return { s.writeOr fault (← MemberRecord.render o s.indent s.members) with members := [] }
  | .flushConsts => do
    let fault := ConstRecord.fault? o s.constIndent s.consts
    return { s.writeOr fault (← ConstRecord.render o s.constIndent s.consts) with
      consts := [], inConsts := false }
  | m => pure (m.play o s)

section Options

variable {o : Options} (ho : 0 ≤ o.indentSize)
include ho

theorem emit_eq (level : Nat) (line : Bytes) : emit o level line = pure (.emit o level line) := by
  rw [emit, indent_eq ho, pure_bind]
  rfl

theorem closer_eq (level : Nat) {l : CodeLine} (h : isCloser l.code = true) :
    closer o level l = pure (.closer o level l) := by
  have hbrace : back (Blank.trim l.code) 1 = pure ((Blank.trim l.code).drop 1) := by
    refine back_eq (i := 1) ?_
    unfold isCloser at h
    cases hcode : Blank.trim l.code with
    | nil => simp [hcode] at h
    | cons b rest => simp
  rw [closer, hbrace, pure_bind, closerLine_eq, pure_bind, emit_eq ho]
  rfl

theorem play_eq (s : State) (m : Move) : play o s m = pure (m.play o s) := by
  cases m with
  | flushFields => rw [play, FieldRecord.render_eq ho, pure_bind]; rfl
  | flushMembers => rw [play, MemberRecord.render_eq ho, pure_bind]; rfl
  | flushConsts => rw [play, ConstRecord.render_eq ho, pure_bind]; rfl
  | _ => rfl

theorem foldlM_play_eq (s : State) (ms : List Move) :
    ms.foldlM (play o) s = pure (s.play o ms) := by
  have hplay : play o = fun s m => pure (m.play o s) := by
    funext s m
    exact play_eq ho s m
  rw [hplay, List.foldlM_pure]
  rfl

end Options

/-! ## Lines inside blocks -/

/-- A member over several lines, from a line to the one where it ends or the last there is. -/
def multiline (o : Options) (lines : List Bytes) (i stop : Int) (s : State) :
    Guarded (List Move × Int) := do
  let stop := min (max stop i) (lines.length - 1)
  let _room ← count (stop - i + 1)
  let texts := (← slice lines i (stop + 1)).map Blank.trim
  let first ← emit o s.indent (← item texts 0)
  let val := Bytes.join [Ascii.newline] texts
  let rest ← reindent o s.indent val
  return ([.flushFields, .flushMembers, first,
    .write (nestedFault? o (nested s.indent val)) rest], stop - i + 1)

theorem multiline_eq {o : Options} (ho : 0 ≤ o.indentSize) (a : List Bytes) (raw : Bytes)
    (rest : List Bytes) (stop : Int) (s : State) :
    multiline o (a ++ raw :: rest) a.length stop s =
      pure (Layout.multiline o (Blank.trim raw) (rest.take (stop - a.length).toNat) s,
        ((rest.take (stop - a.length).toNat).length : Int) + 1) := by
  obtain ⟨k, hk, htake, hstop⟩ := clip a rest raw stop
  unfold multiline
  rw [hstop, htake]
  have hroom : count ((a.length + k : Int) - a.length + 1) = pure (k + 1) := by
    rw [count_eq (by omega)]
    congr 1
    omega
  simp only [hroom, slice_cons _ _ _ hk, pure_bind, List.map_cons, item_zero, emit_eq ho,
    reindent_eq ho]
  have htook : (a.length + k : Int) - a.length + 1 = ((rest.take k).length : Int) + 1 := by
    rw [List.length_take_of_le hk]
    omega
  rw [htook]
  rfl

def lineRecords {α : Type} (read : Bytes → Guarded α) (withComment : α → α) :
    List Part → Guarded (List α)
  | [] => pure []
  | [p] => do return [withComment (← read (p.text ++ p.separator))]
  | p :: ps => do return (← read (p.text ++ p.separator)) :: (← lineRecords read withComment ps)

theorem lineRecords_eq {α : Type} {read' : Bytes → Guarded α} {read : Bytes → α}
    (h : ∀ t, read' t = pure (read t)) (withComment : α → α) (ps : List Part) :
    lineRecords read' withComment ps = pure (Layout.lineRecords read withComment ps) := by
  fun_induction Layout.lineRecords read withComment ps with
  | case1 => rfl
  | case2 p => rw [lineRecords, h, pure_bind]
  | case3 p ps hps ih =>
    rw [lineRecords, h, pure_bind, ih, pure_bind]
    exact hps

/-- The record of a declaration, or the record of a text that looks like one. Records that lose
characters are not used. -/
def record? {α β : Type} (covers : β → Bool) (decl? : Option α) (ofDecl : α → Guarded β)
    (looksLike : Guarded Bool) (ofText? : Guarded (Option β)) : Guarded (Option β) := do
  let fromDecl := (← decl?.mapM ofDecl).filter covers
  if fromDecl.isSome then return fromDecl
  else if ← looksLike then return (← ofText?).filter covers
  else return none

theorem record?_eq {α β : Type} (covers : β → Bool) (decl? : Option α) (ofDecl : α → β)
    (looksLike : Bool) (text? : Option β) :
    record? covers decl? (fun d => pure (ofDecl d)) (pure looksLike) (pure text?) =
      pure ((decl?.map ofDecl).filter covers <|>
        if looksLike then text?.filter covers else none) := by
  have hdecl : decl?.mapM (fun d => (pure (ofDecl d) : Guarded β)) = pure (decl?.map ofDecl) := by
    cases decl? <;> rfl
  rw [record?, hdecl, pure_bind]
  dsimp only
  cases (decl?.map ofDecl).filter covers with
  | some r => rfl
  | none => cases looksLike <;> rfl

def fieldRecords? (f? : Option Field) (l : CodeLine) : Guarded (Option (List FieldRecord)) := do
  match ← splitMembers? (some .struct) l.code with
  | some ps =>
    some <$> lineRecords (fun t => do return (← FieldRecord.ofText? t).getD {})
      (fun r => { r with comment := l.comment }) ps
  | none =>
    let r? ← record? (·.covers l.code) f? (FieldRecord.ofDecl l.text)
      (pure (FieldRecord.looksLike l.code)) (FieldRecord.ofText? l.text)
    return r?.map ([·])

theorem fieldRecords?_eq (f? : Option Field) (l : CodeLine) :
    fieldRecords? f? l = pure (Layout.fieldRecords? f? l) := by
  unfold fieldRecords? Layout.fieldRecords?
  rw [splitMembers?_eq, pure_bind]
  cases ThriftLayout.splitMembers? (some .struct) l.code with
  | some ps =>
    dsimp only
    rw [lineRecords_eq fun t => by rw [FieldRecord.ofText?_eq, pure_bind]]
    rfl
  | none =>
    dsimp only
    rw [FieldRecord.ofText?_eq, funext (FieldRecord.ofDecl_eq l.text), record?_eq, pure_bind]

def memberRecords? (m? : Option Member) (l : CodeLine) : Guarded (Option (List MemberRecord)) := do
  match ← splitMembers? (some .enum) l.code with
  | some ps =>
    some <$> lineRecords (fun t => do return (← MemberRecord.ofText? t).getD {})
      (fun r => { r with comment := l.comment }) ps
  | none =>
    let r? ← record? (·.covers l.code) m? (MemberRecord.ofDecl l.text)
      (MemberRecord.looksLike l.code) (MemberRecord.ofText? l.text)
    return r?.map ([·])

theorem memberRecords?_eq (m? : Option Member) (l : CodeLine) :
    memberRecords? m? l = pure (Layout.memberRecords? m? l) := by
  unfold memberRecords? Layout.memberRecords?
  rw [splitMembers?_eq, pure_bind]
  cases ThriftLayout.splitMembers? (some .enum) l.code with
  | some ps =>
    dsimp only
    rw [lineRecords_eq fun t => by rw [MemberRecord.ofText?_eq, pure_bind]]
    rfl
  | none =>
    dsimp only
    rw [MemberRecord.looksLike_eq, MemberRecord.ofText?_eq, funext (MemberRecord.ofDecl_eq l.text),
      record?_eq, pure_bind]

/-- Where a line stands among the lines that are laid out: it is `i`-th of them and number `abs` of
the source. Both are negative for code that follows the opening brace on a header line. `at?`,
`text` and `rest` are what the layout is told. -/
inductive Spot (lines : List Bytes) (base : Nat) :
    Int → Int → Option Nat → Bytes → List Bytes → Prop
  | line {a : List Bytes} {raw : Bytes} {rest : List Bytes} : lines = a ++ raw :: rest →
    Spot lines base a.length (base + a.length) (some (base + a.length)) (Blank.trim raw) rest
  | header (text : Bytes) : Spot lines base (-1) (-1) none text []

/-- The number of a line in the source, if it has one. -/
def number? (abs : Int) : Option Nat := if abs < 0 then none else some abs.toNat

/-- The moves of a member that goes on after a line, up to the line that its declaration names. -/
def longMember (o : Options) (lines : List Bytes) (base : Nat) (i abs : Int)
    (region? : Option Region) (s : State) : Guarded (Option (List Move × Int)) := do
  match region? with
  | some r =>
    if abs < r.stop.line && 0 ≤ i then some <$> multiline o lines i (r.stop.line - base) s
    else return none
  | none => return none

section Spot

variable {lines : List Bytes} {base : Nat} {i abs : Int} {at? : Option Nat} {text : Bytes}
  {rest : List Bytes} (h : Spot lines base i abs at? text rest)
include h

theorem number?_eq : number? abs = at? := by
  cases h with
  | line => simp [number?]; omega
  | header => rfl

theorem longMember_eq {o : Options} (ho : 0 ≤ o.indentSize) {region? : Option Region}
    (hregion : at? = none → region? = none) (s : State) :
    longMember o lines base i abs region? s =
      pure (if 0 < Layout.linesAfter region? at? then
        some (Layout.multiline o text (rest.take (Layout.linesAfter region? at?)) s,
          ((rest.take (Layout.linesAfter region? at?)).length : Int) + 1)
      else none) := by
  cases h with
  | header =>
    rw [hregion rfl]
    rfl
  | @line a raw rest hlines =>
    subst hlines
    cases region? with
    | none => rfl
    | some r =>
      have hcount : ((r.stop.line : Int) - base - a.length).toNat =
          r.stop.line - (base + a.length) := by omega
      unfold longMember Layout.linesAfter
      dsimp only
      by_cases hlong : 0 < r.stop.line - (base + a.length)
      · have hmore : (base : Int) + a.length < r.stop.line := by omega
        rw [if_pos hlong, multiline_eq ho, hcount]
        simp [hmore]
      · have hmore : ¬ (base : Int) + a.length < r.stop.line := by omega
        rw [if_neg hlong]
        simp [hmore]

end Spot

/-- A line of a struct-like or enum-like block: what closes it, a member over several lines, the
members that `read` finds on it, or other text. -/
def memberLine (kind : BlockKind) (flush : Move) (region? : Option Region)
    (read : Guarded (Option Move)) (other : Guarded Bytes) (o : Options) (lines : List Bytes)
    (base : Nat) (i abs : Int) (l : CodeLine) (s : State) : Guarded (List Move × Int) := do
  if isCloser l.code then return ([flush, .close kind, ← closer o (s.indent - 1) l], 1)
  else
    match ← longMember o lines base i abs region? s with
    | some r => return r
    | none =>
      match ← read with
      | some m => return ([m], 1)
      | none => return ([flush, ← emit o s.indent (← other)], 1)

/-- The text of a line in a struct-like block that holds no fields. -/
def structText (l : CodeLine) : Guarded Bytes :=
  if l.code.contains Ascii.lparen then tightenSignature l.text else pure l.text

def structLine (ix : Index) (o : Options) (lines : List Bytes) (base : Nat) (i abs : Int)
    (l : CodeLine) (s : State) : Guarded (List Move × Int) :=
  let f? := Layout.declField? ix (number? abs) l.code
  let read : Guarded (Option Move) := do return (← fieldRecords? f? l).map .addFields
  memberLine .struct .flushFields (f?.map (·.region)) read (structText l) o lines base i abs l s

def enumLine (ix : Index) (o : Options) (lines : List Bytes) (base : Nat) (i abs : Int)
    (l : CodeLine) (s : State) : Guarded (List Move × Int) :=
  let m? := Layout.declMember? ix (number? abs) l.code
  let read : Guarded (Option Move) := do return (← memberRecords? m? l).map .addMembers
  memberLine .enum .flushMembers (m?.map (·.region)) read (pure l.text) o lines base i abs l s

def serviceLine (ix : Index) (o : Options) (abs : Int) (l : CodeLine) (s : State) :
    Guarded (List Move) := do
  let depth := if ((number? abs).bind ix.functionOn).isSome then 0 else s.parenDepth
  if depth = 0 ∧ isCloser l.code then
    return [.parens 0, .close .service, ← closer o s.serviceIndent l]
  else
    let deeper := 0 < depth ∧ l.code.head? ≠ some Ascii.rparen
    let level := s.serviceIndent + 1 + if deeper then 1 else 0
    let line ← emit o level (← tightenSignature l.text)
    return [line, .parens (max (depth + (← parenDelta l.code)) 0)]

def bodyLine (ix : Index) (o : Options) (lines : List Bytes) (base : Nat) (i abs : Int)
    (l : CodeLine) (s : State) : Guarded (List Move × Int) := do
  match s.block with
  | some .struct => structLine ix o lines base i abs l s
  | some .enum => enumLine ix o lines base i abs l s
  | some .service => return (← serviceLine ix o abs l s, 1)
  | none => return ([← emit o s.indent l.text], 1)

/-- Moves and how many lines they take after the first, with the first counted in. -/
def counted {α : Type} (r : α × Nat) : α × Int := (r.1, (r.2 : Int) + 1)

theorem structText_eq (l : CodeLine) : structText l =
    pure (if l.code.contains Ascii.lparen then ThriftLayout.tightenSignature l.text
      else l.text) := by
  unfold structText
  split
  · exact tightenSignature_eq l.text
  · rfl

section Lines

variable {ix : Index} {o : Options} (ho : 0 ≤ o.indentSize) {lines : List Bytes} {base : Nat}
  {i abs : Int} {at? : Option Nat} {l : CodeLine} {rest : List Bytes}
  (h : Spot lines base i abs at? l.text rest) (s : State)
include ho h

theorem memberLine_eq (kind : BlockKind) (flush : Move) {region? : Option Region}
    (hregion : at? = none → region? = none) (read : Option Move) (other : Bytes) :
    memberLine kind flush region? (pure read) (pure other) o lines base i abs l s =
      pure (counted (if isCloser l.code then ([flush, .close kind, .closer o (s.indent - 1) l], 0)
        else
          let more := rest.take (Layout.linesAfter region? at?)
          if 0 < Layout.linesAfter region? at? then
            (Layout.multiline o l.text more s, more.length)
          else
            match read with
            | some m => ([m], 0)
            | none => ([flush, .emit o s.indent other], 0))) := by
  unfold memberLine
  split
  · rename_i hcloser
    rw [closer_eq ho _ hcloser, pure_bind]
    rfl
  · rw [longMember_eq h ho hregion, pure_bind]
    by_cases hlong : 0 < Layout.linesAfter region? at?
    · rw [if_pos hlong, if_pos hlong]
      rfl
    · rw [if_neg hlong, if_neg hlong]
      dsimp only
      rw [pure_bind, pure_bind, emit_eq ho, pure_bind]
      cases read <;> rfl

theorem structLine_eq : structLine ix o lines base i abs l s =
    pure (counted (Layout.structLine ix o at? l rest s)) := by
  have hregion : at? = none → (Layout.declField? ix at? l.code).map (·.region) = none := by
    rintro rfl
    unfold Layout.declField?
    split <;> rfl
  unfold structLine Layout.structLine
  rw [number?_eq h]
  dsimp only
  rw [fieldRecords?_eq, pure_bind, structText_eq, memberLine_eq ho h s _ _ hregion]
  cases Layout.fieldRecords? (Layout.declField? ix at? l.code) l <;> rfl

theorem enumLine_eq : enumLine ix o lines base i abs l s =
    pure (counted (Layout.enumLine ix o at? l rest s)) := by
  have hregion : at? = none → (Layout.declMember? ix at? l.code).map (·.region) = none := by
    rintro rfl
    unfold Layout.declMember?
    split <;> rfl
  unfold enumLine Layout.enumLine
  rw [number?_eq h]
  dsimp only
  rw [memberRecords?_eq, pure_bind, memberLine_eq ho h s _ _ hregion]
  cases Layout.memberRecords? (Layout.declMember? ix at? l.code) l <;> rfl

theorem serviceLine_eq : serviceLine ix o abs l s = pure (Layout.serviceLine ix o at? l s) := by
  unfold serviceLine Layout.serviceLine
  rw [number?_eq h]
  generalize (if (at?.bind ix.functionOn).isSome then 0 else s.parenDepth) = depth
  dsimp only
  split
  · rename_i hcloser
    rw [closer_eq ho _ hcloser.2, pure_bind]
  · rw [tightenSignature_eq, pure_bind, emit_eq ho, pure_bind, parenDelta_eq, pure_bind]

theorem bodyLine_eq : bodyLine ix o lines base i abs l s =
    pure (counted (Layout.bodyLine ix o at? l rest s)) := by
  unfold bodyLine Layout.bodyLine
  rcases s.block with _ | _ | _ | _
  · rw [emit_eq ho, pure_bind]
    rfl
  · exact structLine_eq ho h s
  · exact enumLine_eq ho h s
  · rw [serviceLine_eq ho h, pure_bind]
    rfl

end Lines

end ThriftLayout.Guarded
