import ThriftLayout.Config.OptionKey
import ThriftLayout.Proofs.Text.LineStarts

/-!
# Setting one option

Every option has a value of its own, and what makes a value unusable is said of that value alone.
So in usable options whether a text is taken for a key, and what it leads to, has nothing to do with
the other options, and texts for different keys can be set in either order.

Results:

* `Options.ext_value`: options are their values and the context.
* `Options.validate_eq`: options are usable when each of their values is.
* `Options.set_eq`: setting an option puts a value that does not depend on the options.
* `Options.set_spec`, `Options.set_comm`: a setting is local, and settings of different keys
  commute.
-/
namespace ThriftLayout

/-- What an option is set to. -/
inductive OptionValue where
  | word (s : Bytes)
  | switch (b : Bool)
  | size (n : Int)
  deriving DecidableEq, Repr

namespace Options

def value (o : Options) (key : OptionKey) : OptionValue :=
  match key.slot with
  | .word get _ => .word (get o)
  | .switch get _ => .switch (get o)
  | .size get _ => .size (get o)

/-- Options with one value in the place of another. A value of another kind changes nothing. -/
def put (o : Options) (key : OptionKey) (x : OptionValue) : Options :=
  match key.slot, x with
  | .word _ put, .word s => put o s
  | .switch _ put, .switch b => put o b
  | .size _ put, .size n => put o n
  | _, _ => o

variable {o o' : Options} {key other : OptionKey} {x y : OptionValue}

theorem ext_value (h : ∀ key, o.value key = o'.value key) (hcontext : o.context = o'.context) :
    o = o' := by
  obtain ⟨⟩ := o
  obtain ⟨⟩ := o'
  simp only [Options.mk.injEq]
  refine ⟨?_, ?_, ?_, ?_, ?_, ?_, ?_, ?_, ?_, ?_, ?_, ?_, ?_, ?_, hcontext⟩
  · exact OptionValue.word.inj (h .trailingComma)
  · exact OptionValue.switch.inj (h .alignTypes)
  · exact OptionValue.switch.inj (h .alignFieldNames)
  · exact OptionValue.switch.inj (h .alignStructDefaults)
  · exact OptionValue.switch.inj (h .alignAnnots)
  · exact OptionValue.switch.inj (h .alignComments)
  · exact OptionValue.switch.inj (h .alignEnumNames)
  · exact OptionValue.switch.inj (h .alignEnumEquals)
  · exact OptionValue.switch.inj (h .alignEnumValues)
  · exact OptionValue.size.inj (h .indentSize)
  · exact OptionValue.size.inj (h .maxLineLength)
  · exact OptionValue.word.inj (h .collectionStyle)
  · exact OptionValue.switch.inj (h .insertSpaces)
  · exact OptionValue.size.inj (h .tabSize)

theorem context_put : (o.put key x).context = o.context := by
  cases key <;> cases x <;> rfl

theorem value_put_of_ne (h : other ≠ key) : (o.put key x).value other = o.value other := by
  cases x <;> cases key <;> cases other <;> first | rfl | exact absurd rfl h

/-- What is put for a key does not depend on the value it replaces. -/
theorem value_put_self (o o' : Options) (h : o.value key = o'.value key) :
    (o.put key x).value key = (o'.put key x).value key := by
  cases x <;> cases key <;> first | rfl | exact h

theorem put_comm (h : key ≠ other) : (o.put key x).put other y = (o.put other y).put key x := by
  refine ext_value (fun k => ?_) ?_
  · by_cases hother : k = other
    · subst hother
      rw [value_put_of_ne (Ne.symm h), value_put_self _ o (value_put_of_ne (Ne.symm h))]
    rw [value_put_of_ne hother]
    by_cases hkey : k = key
    · subst hkey
      exact value_put_self _ _ (value_put_of_ne h).symm
    · rw [value_put_of_ne hkey, value_put_of_ne hkey, value_put_of_ne hother]
  · simp only [context_put]

end Options

/-- Whether a value is of the kind of an option. -/
def OptionSlot.Holds : OptionSlot → OptionValue → Prop
  | .word _ _, .word _ | .switch _ _, .switch _ | .size _ _, .size _ => True
  | _, _ => False

theorem Options.value_put {o : Options} {key : OptionKey} {x : OptionValue} (h : key.slot.Holds x) :
    (o.put key x).value key = x := by
  cases key <;> cases x <;> first | rfl | exact h.elim

/-! ## Usable options -/

def OptionKey.fault? : OptionKey → OptionValue → Option Options.Fault
  | .indentSize, .size n => if n < 0 then some (.indentSize n) else none
  | .tabSize, .size n => if n < 0 then some (.tabSize n) else none
  | .maxLineLength, .size n => if n < 0 then some (.maxLineLength n) else none
  | .trailingComma, .word s =>
    if (Options.canonicalComma? s).isNone then some (.trailingComma s) else none
  | .collectionStyle, .word s =>
    if (Options.canonicalStyle? s).isNone then some (.collectionStyle s) else none
  | _, _ => none

namespace Options

def contextFault? (o : Options) : Option Fault :=
  o.context.bind fun c => if c.indentLevel < 0 then some (.contextLevel c.indentLevel) else none

/-- The options that have unusable values, in the order in which they are looked at. -/
def checked : List OptionKey :=
  [.indentSize, .tabSize, .maxLineLength, .trailingComma, .collectionStyle]

/-- The first fault of options: in one of their values or else in their context. -/
def firstFault? (o : Options) : Option Fault :=
  (checked.findSome? fun key => key.fault? (o.value key)).or o.contextFault?

/-- Whether options can be used. -/
def Usable (o : Options) : Prop := o.validate = .ok ()

theorem validate_eq (o : Options) :
    o.validate = match o.firstFault? with
      | none => .ok ()
      | some f => .error f := by
  unfold validate normalize firstFault?
  simp only [checked, List.findSome?, value, OptionKey.slot, OptionKey.fault?, contextFault?]
  by_cases hindent : o.indentSize < 0
  · simp only [hindent, if_true]
    rfl
  by_cases htab : o.tabSize < 0
  · simp only [hindent, htab, if_true, if_false]
    rfl
  by_cases hline : o.maxLineLength < 0
  · simp only [hindent, htab, hline, if_true, if_false]
    rfl
  simp only [hindent, htab, hline, if_false]
  cases hcomma : canonicalComma? o.trailingComma with
  | none => rfl
  | some comma =>
    cases hstyle : canonicalStyle? o.collectionStyle with
    | none => rfl
    | some style =>
      cases hcontext : o.context with
      | none => rfl
      | some c =>
        by_cases hlevel : c.indentLevel < 0
        · simp [hlevel]
          rfl
        · simp [hlevel]
          rfl

variable {o : Options} {key : OptionKey} {x : OptionValue}

theorem mem_checked (h : key.fault? x ≠ none) : key ∈ checked := by
  cases key <;> first | decide | exact absurd rfl h

theorem usable_iff : o.Usable ↔
    (∀ key : OptionKey, key.fault? (o.value key) = none) ∧ o.contextFault? = none := by
  have hnone : o.Usable ↔ o.firstFault? = none := by
    unfold Usable
    rw [validate_eq]
    split <;> simp [*]
  rw [hnone, firstFault?, Option.or_eq_none_iff, List.findSome?_eq_none_iff]
  refine and_congr_left fun _ => ⟨fun h key => ?_, fun h key _ => h key⟩
  exact Classical.byContradiction fun hfault => hfault (h key (mem_checked hfault))

/-- Options that were usable are so again when the one new value is. -/
theorem firstFault?_put (h : o.Usable) (hx : (o.put key x).value key = x) :
    (o.put key x).firstFault? = key.fault? x := by
  obtain ⟨hvalues, hcontext⟩ := usable_iff.mp h
  have hothers : ∀ other : OptionKey, other ≠ key →
      other.fault? ((o.put key x).value other) = none := by
    intro other hne
    rw [value_put_of_ne hne]
    exact hvalues other
  have hcontext' : (o.put key x).contextFault? = none := by
    rw [← hcontext]
    unfold contextFault?
    rw [context_put]
  rw [firstFault?, hcontext', Option.or_none]
  cases hfault : key.fault? x with
  | none =>
    refine List.findSome?_eq_none_iff.mpr fun other _ => ?_
    by_cases hne : other = key
    · rw [hne, hx, hfault]
    · exact hothers other hne
  | some f =>
    obtain ⟨before, after, hsplit⟩ :=
      List.append_of_mem (mem_checked (hfault ▸ Option.some_ne_none f))
    have hbefore : key ∉ before := by
      have hnodup : checked.Nodup := by decide
      rw [hsplit] at hnodup
      exact fun hmem => (List.nodup_append.mp hnodup).2.2 _ hmem _ List.mem_cons_self rfl
    rw [hsplit, List.findSome?_append, List.findSome?_eq_none_iff.mpr fun other hmem =>
      hothers other fun he => hbefore (he ▸ hmem), Option.none_or, List.findSome?_cons, hx, hfault]

end Options

/-! ## Reading a value -/

namespace OptionKey

/-- Reads a trimmed text as a value of an option, usable or not. -/
def read (key : OptionKey) (text : Bytes) : Except AssignFault OptionValue :=
  match key.slot with
  | .word _ _ => .ok (.word (Lowercase.text text))
  | .switch _ _ =>
    match Integer.truth? text with
    | some b => .ok (.switch b)
    | none => .error (.notBool key text)
  | .size _ _ =>
    match Integer.decimal? text with
    | some n => .ok (.size n)
    | none => .error (.notInt key text)

theorem holds_read {key : OptionKey} {text : Bytes} {x : OptionValue} (h : key.read text = .ok x) :
    key.slot.Holds x := by
  unfold read at h
  cases hslot : key.slot with
  | word get put =>
    rw [hslot] at h
    obtain rfl := Except.ok.inj h
    trivial
  | switch get put =>
    simp only [hslot] at h
    split at h
    · obtain rfl := Except.ok.inj h
      trivial
    · exact nomatch h
  | size get put =>
    simp only [hslot] at h
    split at h
    · obtain rfl := Except.ok.inj h
      trivial
    · exact nomatch h

/-- The usable value that a text gives an option. -/
def accept (key : OptionKey) (text : Bytes) : Except AssignFault OptionValue := do
  let x ← key.read (Blank.trim text)
  match key.fault? x with
  | none => .ok x
  | some f => .error (.unusable key f)

theorem text_injective : Function.Injective text := by
  intro k l h
  have hall : ∀ k ∈ all, ∀ l ∈ all, k.text = l.text → k = l := by decide
  have hmem : ∀ k, k ∈ all := by intro k; cases k <;> decide
  exact hall k (hmem k) l (hmem l) h

theorem ofText?_eq_some_iff {name : Bytes} {key : OptionKey} :
    ofText? name = some key ↔ key.text = name := by
  have hmem : key ∈ all := by cases key <;> decide
  constructor
  · intro h
    exact eq_of_beq (List.find?_some (p := fun k : OptionKey => k.text == name) h)
  · rintro rfl
    cases hfind : ofText? key.text with
    | none => exact absurd (List.find?_eq_none.mp hfind key hmem) (by simp)
    | some k =>
      have htext := eq_of_beq (List.find?_some (p := fun k : OptionKey => k.text == key.text) hfind)
      rw [text_injective htext]

/-- The option that a name and a text set, and its value. -/
def acceptNamed (name text : Bytes) : Except AssignFault (OptionKey × OptionValue) :=
  match ofText? name with
  | some key => (key.accept text).map (key, ·)
  | none => .error (.unknownKey name)

theorem of_acceptNamed {name text : Bytes} {key : OptionKey} {x : OptionValue}
    (h : acceptNamed name text = .ok (key, x)) :
    key.text = name ∧ key.slot.Holds x ∧ key.fault? x = none := by
  unfold acceptNamed at h
  split at h
  · rename_i k hname
    cases haccept : k.accept text with
    | error f =>
      rw [haccept] at h
      exact nomatch h
    | ok y =>
      rw [haccept] at h
      obtain ⟨rfl, rfl⟩ := Prod.mk.inj (Except.ok.inj h)
      obtain ⟨z, hread, hcheck⟩ := exists_of_bind_eq_ok haccept
      split at hcheck
      · rename_i hfault
        obtain rfl := Except.ok.inj hcheck
        exact ⟨ofText?_eq_some_iff.mp hname, holds_read hread, hfault⟩
      · exact nomatch hcheck
  · exact nomatch h

end OptionKey

namespace Options

variable {o : Options} {key : OptionKey}

theorem write_eq (o : Options) (key : OptionKey) (text : Bytes) :
    o.write key text = match key.read text with
      | .ok x => (o.put key x, none)
      | .error f => (o, some f) := by
  unfold write OptionKey.read put
  cases key.slot with
  | word get put => rfl
  | switch get put => cases Integer.truth? text <;> rfl
  | size get put => cases Integer.decimal? text <;> rfl

theorem value_put_read {text : Bytes} {x : OptionValue} (h : key.read text = .ok x) :
    (o.put key x).value key = x :=
  value_put (OptionKey.holds_read h)

/-! ## Setting an option -/

/-- Whether two sets of options differ in the option with a name, if at all. -/
structure SameBut (name : Bytes) (o next : Options) : Prop where
  value {key : OptionKey} (h : key.text ≠ name) : next.value key = o.value key
  context : next.context = o.context

theorem usable_put (h : o.Usable) {x : OptionValue} (hkind : key.slot.Holds x)
    (hfault : key.fault? x = none) : (o.put key x).Usable := by
  unfold Usable
  rw [validate_eq, firstFault?_put h (value_put hkind), hfault]

/-- The copy is written to and looked at as a whole, but all that is looked at anew is the one
value. -/
theorem set_eq (h : o.Usable) (name text : Bytes) :
    o.set name text = match OptionKey.acceptNamed name text with
      | .ok (key, x) => (o.put key x, none)
      | .error f => (o, some f) := by
  unfold set OptionKey.acceptNamed
  cases OptionKey.ofText? name with
  | none => rfl
  | some key =>
    simp only [write_eq, OptionKey.accept]
    cases hread : key.read (Blank.trim text) with
    | error f => rfl
    | ok x =>
      simp only [ok_bind]
      rw [validate_eq, firstFault?_put h (value_put_read hread)]
      cases key.fault? x <;> rfl

/-- A setting changes nothing, or the one option to something usable. -/
theorem set_spec (h : o.Usable) (name text : Bytes) :
    (∃ f, o.set name text = (o, some f)) ∨
      ∃ next, o.set name text = (next, none) ∧ next.Usable ∧ SameBut name o next := by
  rw [set_eq h]
  cases haccept : OptionKey.acceptNamed name text with
  | error f => exact .inl ⟨f, rfl⟩
  | ok a =>
    obtain ⟨key, x⟩ := a
    obtain ⟨rfl, hkind, hfault⟩ := OptionKey.of_acceptNamed haccept
    refine .inr ⟨_, rfl, usable_put h hkind hfault, fun hne => ?_, context_put⟩
    exact value_put_of_ne fun he => hne (congrArg OptionKey.text he)

theorem usable_set (h : o.Usable) (name text : Bytes) : (o.set name text).1.Usable := by
  rcases set_spec h name text with ⟨f, hset⟩ | ⟨next, hset, hnext, -⟩ <;> rw [hset]
  · exact h
  · exact hnext

/-- Whether a text is taken, and why not, has nothing to do with the other options. -/
theorem set_fault (h : o.Usable) {o' : Options} (h' : o'.Usable) (name text : Bytes) :
    (o.set name text).2 = (o'.set name text).2 := by
  rw [set_eq h, set_eq h']
  cases OptionKey.acceptNamed name text <;> rfl

theorem set_comm (h : o.Usable) {name name' : Bytes} (hne : name ≠ name') (text text' : Bytes) :
    ((o.set name text).1.set name' text').1 = ((o.set name' text').1.set name text).1 := by
  rw [set_eq (usable_set h name text), set_eq (usable_set h name' text'), set_eq h, set_eq h]
  cases hfirst : OptionKey.acceptNamed name text with
  | error f => cases OptionKey.acceptNamed name' text' <;> rfl
  | ok a =>
    cases hsecond : OptionKey.acceptNamed name' text' with
    | error f => rfl
    | ok b =>
      refine put_comm fun he => hne ?_
      rw [← (OptionKey.of_acceptNamed hfirst).1, ← (OptionKey.of_acceptNamed hsecond).1, he]

end Options

end ThriftLayout
