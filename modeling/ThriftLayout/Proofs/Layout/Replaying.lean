import ThriftLayout.Proofs.Layout.Resuming

/-!
# Replaying lines without their declarations

The context at a line is found by a pass over the lines before it that knows no declarations
(`contextAt`). It is the context of the pass that knows them as long as no line before it has to
be read from its declaration (`readsAlone`): a header that its text does not show, a member or
constant over several lines of which one looks like a header, a closer or a block comment, and a
function that starts inside open parentheses.

What a line does to the place a pass is at depends on the place and the line alone (`step_place`),
whatever waits. So the pass with declarations is followed line by line; where
it takes several lines at once, the other pass reads them one by one and stays where it is.

Results:

* `contextAt_eq`: the contexts are the same while every line can be read alone.
* `not_contextsAgree_mapDefault`: after a default over several lines they are not.
-/
namespace ThriftLayout.Layout

variable {ix : Index} {o : Options} {line : Nat}

/-! ## Lines that need no declaration -/

/-- Whether the text of a line shows the block that a declaration has on it. -/
def showsHeader (ix : Index) (line : Nat) (code : Bytes) : Bool :=
  (BlockKind.ofHeader? code).isSome || ((ix.inlineKind? line).isNone && (ix.blockKind? line).isNone)

/-- Whether a function of a service starts outside parentheses, as its text says. -/
def showsFunction (ix : Index) (line : Nat) (s : State) : Bool :=
  s.block != some .service || (ix.functionOn line).isNone || s.parenDepth == 0

/-- Whether a line leads nowhere in a block that is not a service, or outside all blocks. -/
def isInert (block : Option BlockKind) (raw : Bytes) : Bool :=
  let l := CodeLine.ofLine raw
  !blockOpener.isPrefixOf l.text && (BlockKind.ofHeader? l.code).isNone &&
    (block.isNone || !isCloser l.code)

/-- Whether the lines that a member or constant takes lead nowhere one by one. -/
def showsMore (ix : Index) (o : Options) (line : Nat) (raw : Bytes) (rest : List Bytes)
    (s : State) : Bool :=
  let r := step ix o line raw rest s
  r.2 == 0 || (r.1.block != some .service && (rest.take r.2).all (isInert r.1.block))

/-- Whether a line leads to the same place when its declaration is not known. -/
def readsAlone (ix : Index) (o : Options) (line : Nat) (raw : Bytes) (rest : List Bytes)
    (s : State) : Bool :=
  (BlockComment.reflow? o s.commentLevel raw rest).isSome ||
    (showsHeader ix line (CodeLine.ofLine raw).code && showsFunction ix line s &&
      showsMore ix o line raw rest s)

/-- Whether every line of a pass can be read alone. -/
def allReadAlone (ix : Index) (o : Options) (line : Nat) (lines : List Bytes) (s : State) : Bool :=
  match lines with
  | [] => true
  | l :: ls =>
    let r := step ix o line l ls s
    readsAlone ix o line l ls s && allReadAlone ix o (line + 1 + r.2) (ls.drop r.2) r.1
termination_by lines.length
decreasing_by
  simp only [List.length_drop, List.length_cons]
  omega

section Alone

variable {raw : Bytes} {rest : List Bytes} {s : State}

theorem ofHeader?_of_const {code : Bytes}
    (h : Pattern.startsWithWord (utf8 "const") code = true) : BlockKind.ofHeader? code = none := by
  obtain ⟨r, rfl⟩ := startsWithConst h
  unfold BlockKind.ofHeader?
  rw [Blank.trim_cons (by decide)]
  rfl

theorem isCloser_of_const {code : Bytes}
    (h : Pattern.startsWithWord (utf8 "const") code = true) : isCloser code = false := by
  obtain ⟨r, rfl⟩ := startsWithConst h
  rw [isCloser_cons (by decide)]
  rfl

/-- Without declarations a constant is read from its line. -/
theorem constRecord?_empty :
    constRecord? .empty line raw rest = (ConstRecord.ofText? raw).map fun r => (r, 0) := rfl

/-- A constant is read from its declaration's lines or from its own. -/
theorem constRecord?_cases {r : ConstRecord × Nat} (h : constRecord? ix line raw rest = some r) :
    (∃ n, ConstRecord.ofLines? raw (rest.take n) = some r.1 ∧ r.2 = (rest.take n).length) ∨
      ConstRecord.ofText? raw = some r.1 ∧ r.2 = 0 := by
  unfold constRecord? at h
  simp only [Option.orElse_eq_orElse, Option.orElse_eq_or, Option.or_eq_some_iff,
    Option.bind_eq_some_iff, Option.map_eq_some_iff] at h
  obtain ⟨d, -, c, hc, rfl⟩ | ⟨-, c, hc, rfl⟩ := h
  · exact .inl ⟨_, hc, rfl⟩
  · exact .inr ⟨hc, rfl⟩

/-- A constant that is only known from its declaration goes on over more lines. -/
theorem constRecord?_pos {r : ConstRecord × Nat} (h : constRecord? ix line raw rest = some r)
    (htext : ConstRecord.ofText? raw = none) : 0 < r.2 := by
  rcases constRecord?_cases h with ⟨n, hlines, hcount⟩ | ⟨hread, -⟩
  · refine Nat.pos_of_ne_zero fun hzero => ?_
    rw [hcount] at hzero
    rw [List.eq_nil_of_length_eq_zero hzero] at hlines
    have hread : ConstRecord.ofText? raw = some r.1 := hlines
    exact absurd (htext.symm.trans hread) (by simp)
  · exact absurd (htext.symm.trans hread) (by simp)

theorem commentLevel_of_place {u : State} (h : u.place = s.place) :
    u.commentLevel = s.commentLevel := by
  have hindent : u.indent = s.indent := congrArg Place.indent h
  have hin : u.inService = s.inService := congrArg Place.inService h
  have hlevel : u.serviceIndent = s.serviceIndent := congrArg Place.serviceIndent h
  simp only [State.commentLevel, hindent, hin, hlevel]

/-- Outside services a line that is no closer and no header leads nowhere. -/
theorem Place.afterCode_inert {p : Place} {l : CodeLine} (hservice : p.block ≠ some .service)
    (hcloser : p.block = none ∨ isCloser l.code = false) (isFunction : Bool) :
    p.afterCode l none none isFunction = p := by
  have hbody : p.afterBody l.code isFunction = p := by
    unfold Place.afterBody
    cases hb : p.block with
    | none => rfl
    | some kind =>
      have hopen : isCloser l.code = false := hcloser.resolve_left (by simp [hb])
      cases kind with
      | service => exact absurd hb hservice
      | struct => simp only [hopen, Bool.false_eq_true, if_false]
      | enum => simp only [hopen, Bool.false_eq_true, if_false]
  unfold Place.afterCode
  simp only [hbody, ite_self]

theorem bodyLine_empty_count (at? : Option Nat) (l : CodeLine) :
    (bodyLine .empty o at? l rest s).2 = 0 := by
  have hfield : declField? .empty at? l.code = none := by
    unfold declField?
    cases at? <;> exact ite_self _
  have hmember : declMember? .empty at? l.code = none := by
    unfold declMember?
    cases at? <;> exact ite_self _
  unfold bodyLine
  split
  · unfold structLine
    simp only [hfield]
    split
    · rfl
    · simp only [Option.map_none, linesAfter, Nat.lt_irrefl, if_false]
      split <;> rfl
  · unfold enumLine
    simp only [hmember]
    split
    · rfl
    · simp only [Option.map_none, linesAfter, Nat.lt_irrefl, if_false]
      split <;> rfl
  · rfl
  · rfl

theorem codeLine_empty_count (l : CodeLine) : (codeLine .empty o line l rest s).2 = 0 := by
  unfold codeLine
  simp only
  split
  · rfl
  split
  · rfl
  · rfl
  · split
    · rfl
    · exact bodyLine_empty_count _ _

theorem codeLine_count_le (l : CodeLine) : (codeLine ix o line l rest s).2 ≤ rest.length := by
  unfold codeLine
  simp only
  split
  · exact Nat.zero_le _
  split
  · exact Nat.zero_le _
  · exact Nat.zero_le _
  split
  · exact Nat.zero_le _
  unfold bodyLine
  split
  · unfold structLine
    simp only
    split
    · exact Nat.zero_le _
    split
    · exact List.length_take_le' _ _
    · split <;> exact Nat.zero_le _
  · unfold enumLine
    simp only
    split
    · exact Nat.zero_le _
    split
    · exact List.length_take_le' _ _
    · split <;> exact Nat.zero_le _
  · exact Nat.zero_le _
  · exact Nat.zero_le _

theorem constRecord?_count_le {r : ConstRecord × Nat}
    (h : constRecord? ix line raw rest = some r) : r.2 ≤ rest.length := by
  rcases constRecord?_cases h with ⟨n, -, hcount⟩ | ⟨-, hcount⟩
  · rw [hcount]
    exact List.length_take_le' _ _
  · rw [hcount]
    exact Nat.zero_le _

/-- A line takes no more lines than there are. -/
theorem step_count_le (h : BlockComment.reflow? o s.commentLevel raw rest = none) :
    (step ix o line raw rest s).2 ≤ rest.length := by
  show (lineMoves ix o line raw rest s).2 ≤ rest.length
  unfold lineMoves
  simp only [h]
  split
  · exact Nat.zero_le _
  split
  · exact Nat.zero_le _
  split
  · cases hrecord : constRecord? ix line raw rest with
    | some r => exact constRecord?_count_le hrecord
    | none => exact codeLine_count_le _
  · exact codeLine_count_le _

/-- Without declarations only block comments take more than their first line. -/
theorem step_empty_count (h : BlockComment.reflow? o s.commentLevel raw rest = none) :
    (step .empty o line raw rest s).2 = 0 := by
  show (lineMoves .empty o line raw rest s).2 = 0
  unfold lineMoves
  simp only [h, constRecord?_empty]
  split
  · rfl
  split
  · rfl
  split
  · cases ConstRecord.ofText? raw with
    | some r => rfl
    | none => exact codeLine_empty_count _
  · exact codeLine_empty_count _

theorem step_inert (hservice : s.block ≠ some .service) (h : isInert s.block raw = true) :
    (step .empty o line raw rest s).1.place = s.place ∧ (step .empty o line raw rest s).2 = 0 := by
  simp only [isInert, Bool.and_eq_true, Bool.or_eq_true, Bool.not_eq_true',
    Option.isNone_iff_eq_none] at h
  obtain ⟨⟨hopener, hheader⟩, hcloser⟩ := h
  have hcomment : BlockComment.reflow? o s.commentLevel raw rest = none :=
    reflow?_eq_none_of_not_blockOpener hopener
  refine ⟨?_, step_empty_count hcomment⟩
  rw [step_place hcomment]
  unfold Place.afterLine
  simp only
  split
  · rfl
  split
  · rfl
  rw [hheader, show (if isInlineBody (CodeLine.ofLine raw).code then
    none <|> Index.empty.inlineKind? line else none) = none from ite_self _]
  exact Place.afterCode_inert (p := s.place) hservice hcloser _

theorem afterBody_isFunction (h : showsFunction ix line s = true) (code : Bytes) :
    s.place.afterBody code (ix.functionOn line).isSome = s.place.afterBody code false := by
  simp only [showsFunction, Bool.or_eq_true, bne_iff_ne, Option.isNone_iff_eq_none, beq_iff_eq] at h
  rcases h with (hservice | hnone) | hdepth
  · unfold Place.afterBody
    rw [show s.place.block = s.block from rfl]
    cases hb : s.block with
    | none => rfl
    | some kind =>
      cases kind with
      | service => exact absurd hb hservice
      | struct => rfl
      | enum => rfl
  · rw [hnone]
    rfl
  · unfold Place.afterBody
    rw [show s.place.parenDepth = s.parenDepth from rfl, hdepth]
    simp only [ite_self]

/-- A line of code whose text shows its block and its function leads to the same place. -/
theorem afterCode_empty {l : CodeLine} (hheader : showsHeader ix line l.code = true)
    (hfunction : showsFunction ix line s = true) :
    s.place.afterCode l
        (if isInlineBody l.code then
          BlockKind.ofHeader? l.code <|> Index.empty.inlineKind? line else none)
        (BlockKind.ofHeader? l.code <|> Index.empty.blockKind? line)
        (Index.empty.functionOn line).isSome =
      s.place.afterCode l
        (if isInlineBody l.code then BlockKind.ofHeader? l.code <|> ix.inlineKind? line else none)
        (BlockKind.ofHeader? l.code <|> ix.blockKind? line) (ix.functionOn line).isSome := by
  cases hkind : BlockKind.ofHeader? l.code with
  | some kind =>
    unfold Place.afterCode
    simp only [Option.orElse_eq_orElse, Option.orElse_some]
    cases isInlineBody l.code <;> rfl
  | none =>
    simp only [showsHeader, hkind, Option.isSome_none, Bool.false_or, Bool.and_eq_true,
      Option.isNone_iff_eq_none] at hheader
    rw [hheader.1, hheader.2]
    unfold Place.afterCode
    rw [afterBody_isFunction hfunction]
    rfl

/-- A constant leads nowhere, and takes the lines that it goes on over. -/
theorem step_const {r : ConstRecord × Nat}
    (h : BlockComment.reflow? o s.commentLevel raw rest = none)
    (hcode : (CodeLine.ofLine raw).code ≠ [])
    (hconst : Pattern.startsWithWord (utf8 "const") (CodeLine.ofLine raw).code = true)
    (hrecord : constRecord? ix line raw rest = some r) :
    (step ix o line raw rest s).1.place = s.place ∧ (step ix o line raw rest s).2 = r.2 := by
  have htext : (CodeLine.ofLine raw).text ≠ [] := fun hnil => hcode (code_nil_of_text_nil hnil)
  have hmoves : lineMoves ix o line raw rest s = ([.addConst r.1], r.2) := by
    unfold lineMoves
    simp only [h, hconst, hrecord, List.isEmpty_iff, htext, hcode, if_false, if_true]
  refine ⟨?_, ?_⟩
  · rw [step_place_eq, hmoves]
    rfl
  · show (lineMoves ix o line raw rest s).2 = r.2
    rw [hmoves]

/-- A line that can be read alone leads to the same place. -/
theorem afterLine_empty (h : BlockComment.reflow? o s.commentLevel raw rest = none)
    (halone : readsAlone ix o line raw rest s = true) :
    s.place.afterLine .empty line raw rest = s.place.afterLine ix line raw rest := by
  simp only [readsAlone, h, Option.isSome_none, Bool.false_or, Bool.and_eq_true] at halone
  obtain ⟨⟨hheader, hfunction⟩, hmore⟩ := halone
  have hcode := afterCode_empty hheader hfunction
  unfold Place.afterLine
  simp only
  split
  · rfl
  rename_i hempty
  cases hconst : Pattern.startsWithWord (utf8 "const") (CodeLine.ofLine raw).code with
  | false => simpa only [Bool.false_and, Bool.false_eq_true, if_false] using hcode
  | true =>
    simp only [Bool.true_and]
    cases htext : ConstRecord.ofText? raw with
    | some c =>
      have hrecord : (constRecord? ix line raw rest).isSome := by
        unfold constRecord?
        rw [htext]
        simp
      rw [if_pos hrecord]
      simp only [constRecord?_empty, htext, Option.map_some, Option.isSome_some, if_true]
    | none =>
      simp only [constRecord?_empty, htext, Option.map_none, Option.isSome_none, Bool.false_eq_true,
        if_false]
      cases hrecord : constRecord? ix line raw rest with
      | none => simpa only [Option.isSome_none, Bool.false_eq_true, if_false] using hcode
      | some r =>
        -- Only the declaration shows the constant, so it takes more lines and is in no service.
        obtain ⟨hplace, hcount⟩ := step_const h (by simpa using hempty) hconst hrecord
        have hblock : (step ix o line raw rest s).1.block = s.block := congrArg Place.block hplace
        have hservice : s.block ≠ some .service := by
          have hpos := constRecord?_pos hrecord htext
          simp only [showsMore, hcount, hblock, Bool.or_eq_true, beq_iff_eq, Bool.and_eq_true,
            bne_iff_ne] at hmore
          exact (hmore.resolve_left (Nat.ne_of_gt hpos)).1
        rw [ofHeader?_of_const hconst, show (if isInlineBody (CodeLine.ofLine raw).code then
          none <|> Index.empty.inlineKind? line else none) = none from ite_self _]
        exact Place.afterCode_inert (p := s.place) hservice (.inr (isCloser_of_const hconst)) _

end Alone

/-! ## Replaying -/

section Pass

variable {first : Nat} {source : List Bytes}

/-- Lines that are inert lead nowhere, one by one. -/
theorem Reached.inert {ls more : List Bytes} {t : Traced}
    (h : Reached .empty o first source line (ls ++ more) t)
    (hservice : t.state.block ≠ some .service) (hls : ls.all (isInert t.state.block) = true) :
    ∃ t', Reached .empty o first source (line + ls.length) more t' ∧
      t'.state.place = t.state.place := by
  induction ls generalizing line t with
  | nil => exact ⟨t, h, rfl⟩
  | cons l ls ih =>
    rw [List.all_cons, Bool.and_eq_true] at hls
    obtain ⟨hplace, hcount⟩ := @step_inert o line l (ls ++ more) t.state hservice hls.1
    obtain ⟨u, hu, hstate⟩ := h.next hcount
    have hup : u.state.place = t.state.place := (congrArg State.place hstate).trans hplace
    have hblock : u.state.block = t.state.block := congrArg Place.block hup
    obtain ⟨t', ht', hplace'⟩ := ih hu (hblock ▸ hservice) (hblock ▸ hls.2)
    refine ⟨t', ?_, hplace'.trans hup⟩
    rwa [List.length_cons, Nat.add_comm ls.length, ← Nat.add_assoc]

/-- A pass that knows no declarations comes through the same places, as long as every line can be
read alone. -/
theorem Reached.replay {lines : List Bytes} {t : Traced}
    (halone : allReadAlone ix o first source (.start o) = true)
    (h : Reached ix o first source line lines t) :
    allReadAlone ix o line lines t.state = true ∧
      ∃ u, Reached .empty o first source line lines u ∧ u.state.place = t.state.place := by
  induction h with
  | start => exact ⟨halone, _, .start, rfl⟩
  | @step line raw rest t _ ih =>
    obtain ⟨hall, u, hu, hplace⟩ := ih
    obtain ⟨hstate, hcount⟩ := @Traced.step_state ix o line raw rest t
    rw [allReadAlone, Bool.and_eq_true] at hall
    obtain ⟨hline, hlater⟩ := hall
    rw [hstate, hcount]
    refine ⟨hlater, ?_⟩
    have hlevel := commentLevel_of_place hplace
    cases hcomment : BlockComment.reflow? o t.state.commentLevel raw rest with
    | some r =>
      obtain ⟨hleads, hn⟩ := @step_comment ix o line rest raw t.state r hcomment
      obtain ⟨hleads', hn'⟩ := @step_comment .empty o line rest raw u.state r (hlevel ▸ hcomment)
      obtain ⟨u', hu', hstate'⟩ := hu.next hn'
      rw [hn]
      exact ⟨u', hu', by rw [hstate', hleads', hleads, hplace]⟩
    | none =>
      have hcomment' : BlockComment.reflow? o u.state.commentLevel raw rest = none :=
        hlevel ▸ hcomment
      obtain ⟨u', hu', hstate'⟩ := hu.next (step_empty_count hcomment')
      have hleads : u'.state.place = (Layout.step ix o line raw rest t.state).1.place := by
        rw [hstate', step_place hcomment', step_place hcomment, hplace,
          afterLine_empty hcomment hline]
      have hblock : u'.state.block = (Layout.step ix o line raw rest t.state).1.block :=
        congrArg Place.block hleads
      simp only [readsAlone, hcomment, Option.isSome_none, Bool.false_or, Bool.and_eq_true,
        showsMore, Bool.or_eq_true, beq_iff_eq, bne_iff_ne] at hline
      rcases hline.2 with hzero | ⟨hservice, hinert⟩
      · rw [hzero]
        exact ⟨u', hu', hleads⟩
      · have hcountle := @step_count_le ix o line raw rest t.state hcomment
        generalize (Layout.step ix o line raw rest t.state).2 = n at *
        rw [List.drop_zero, ← List.take_append_drop n rest] at hu'
        obtain ⟨u'', hu'', hplace''⟩ := hu'.inert (hblock ▸ hservice) (hblock ▸ hinert)
        rw [List.length_take, Nat.min_eq_left hcountle] at hu''
        exact ⟨u'', hu'', hplace''.trans hleads⟩

end Pass

/-! ## Contexts -/

/-- The block state at a place, as a context. -/
def Place.context (p : Place) : Context where
  indentLevel := if p.inService then p.serviceIndent else p.indent
  inStruct := p.inStruct
  inEnum := p.inEnum
  inService := p.inService

theorem State.context_eq (s : State) : s.context = s.place.context := rfl

/-- Before every line that a pass comes to, the context found without declarations is the one the
pass has. -/
def ContextsAgree (ix : Index) (source : List Bytes) : Prop :=
  ∀ {line lines t}, Reached ix .standard 0 source line lines t →
    contextAt source line = t.state.context

/-- While every line can be read alone, the contexts are the same: the replay from the text of the
lines, without declarations and with standard options, comes to the block state that the pass itself
has before the line. -/
theorem contextAt_eq {source : List Bytes}
    (halone : allReadAlone ix .standard 0 source (.start .standard) = true) :
    ContextsAgree ix source := by
  intro line lines t h
  obtain ⟨-, u, hu, hplace⟩ := h.replay halone
  have hsteps : steps .empty .standard 0 (source.take line) (.start .standard) = u.state := by
    have htake := hu.steps_take 0
    rwa [Nat.sub_zero, Nat.add_zero, List.take_zero, steps] at htake
  unfold contextAt run
  rw [Int.toNat_natCast, hsteps, State.context_eq, State.flush_place, hplace, State.context_eq]

/-- A constant and an annotated field over several lines, and a function with its arguments on a
line of their own. -/
def spreadMembers : Bytes :=
  utf8 "const A M = \x7b\n1: 2\n\x7d\nstruct S \x7b\n1: A a (\nx\n)\n\x7d\n" ++
    utf8 "service T \x7b\nA f(\n1: A a\n)\n\x7d\n"

/-- All of them can be read alone. -/
theorem contextAt_eq_spreadMembers :
    allReadAlone (.ofDocument? (some (Document.parse [] spreadMembers))) .standard 0
        (splitLines spreadMembers) (.start .standard) = true ∧
      ContextsAgree (.ofDocument? (some (Document.parse [] spreadMembers)))
        (splitLines spreadMembers) := by
  have halone : allReadAlone (.ofDocument? (some (Document.parse [] spreadMembers))) .standard 0
      (splitLines spreadMembers) (.start .standard) = true := by decide +kernel
  exact ⟨halone, contextAt_eq halone⟩

/-- A field with a map over several lines as its default, and a field after it. -/
def mapDefault : Bytes :=
  utf8 "struct S \x7b\n1: M m = \x7b\n1: 2\n\x7d\n2: i32 x\n\x7d\n"

/-- Without declarations the closing brace of the default is taken for that of the struct. -/
theorem not_contextsAgree_mapDefault :
    (Document.parse [] mapDefault).diagnostics = [] ∧
      ¬ ContextsAgree (.ofDocument? (some (Document.parse [] mapDefault)))
        (splitLines mapDefault) := by
  refine ⟨by decide +kernel, fun h => ?_⟩
  have hlines : splitLines mapDefault = utf8 "struct S \x7b" ::
      utf8 "1: M m = \x7b" :: (splitLines mapDefault).drop 2 := by decide +kernel
  have hstart : Reached (.ofDocument? (some (Document.parse [] mapDefault))) .standard 0
      (splitLines mapDefault) 0 (splitLines mapDefault) (.start .standard) := .start
  rw [hlines] at hstart
  -- The header takes its line, and the field two more lines.
  obtain ⟨t, ht, hfirst⟩ := hstart.next (n := 0) (by decide +kernel)
  obtain ⟨u, hu, hsecond⟩ := ht.next (n := 2) (by rw [hfirst]; decide +kernel)
  rw [← hlines] at hu
  have hcontext := h hu
  rw [hsecond, hfirst] at hcontext
  exact absurd hcontext (by decide +kernel)

end ThriftLayout.Layout
