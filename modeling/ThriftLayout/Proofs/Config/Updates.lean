import Mathlib
import ThriftLayout.Proofs.Config.Assigning
import ThriftLayout.Proofs.Editor.Dispatch

/-!
# Updates of the options

Settings are applied member by member, each taken or refused for itself, and the options they came
to are kept only when none was refused. In usable options the order of the members therefore shows
in the order of the refusals and nowhere else, and a session has nothing left of settings that
others came after.

Results:

* `Settings.applyMember_eq`, `Settings.applyMembers_eq`: what one member and all of them come to.
* `Settings.applied_fault`, `Settings.applied_perm`: the refusals of members, and their order.
* `Session.options_afterSettings`: the options of a session after any settings.
* `updates_isolated`: all that holds of setting options one at a time, by settings, and by an
  editor.
* `applied_differs_twoUnknown`: refusals are listed in the order of their members.
-/
namespace ThriftLayout

namespace Settings

/-! ## Members -/

/-- Why a member is refused, if it alone is put on top of options. `null` asks for nothing. -/
def refusal? (o : Options) : Bytes × JsonValue → Option AssignFault
  | (_, .null) => none
  | (key, v) => (o.set (JsonText.greedy key) (valueText v)).2

/-- The option that a member sets, and its value. -/
def taken? : Bytes × JsonValue → Option (OptionKey × OptionValue)
  | (_, .null) => none
  | (key, v) => (OptionKey.acceptNamed (JsonText.greedy key) (valueText v)).toOption

variable {o o' : Options} {m : Bytes × JsonValue} {ms ms' : List (Bytes × JsonValue)}

theorem of_taken? {a : OptionKey × OptionValue} (h : taken? m = some a) :
    a.1.text = JsonText.greedy m.1 ∧ a.1.slot.Holds a.2 ∧ a.1.fault? a.2 = none := by
  unfold taken? at h
  split at h
  · exact nomatch h
  · rename_i key v _
    cases haccept : OptionKey.acceptNamed (JsonText.greedy key) (valueText v) with
    | error f =>
      rw [haccept] at h
      exact nomatch h
    | ok b =>
      rw [haccept] at h
      obtain rfl : b = a := Option.some.inj h
      exact OptionKey.of_acceptNamed haccept

/-- Why a member is refused has nothing to do with the options that it is put on top of. -/
theorem refusal?_eq (h : o.Usable) (h' : o'.Usable) (m : Bytes × JsonValue) :
    refusal? o m = refusal? o' m := by
  unfold refusal?
  split
  · rfl
  · exact Options.set_fault h h' _ _

theorem applyMember_eq (h : o.Usable) (fs : List AssignFault) (m : Bytes × JsonValue) :
    applyMember (o, fs) m =
      ((taken? m).elim o fun a => o.put a.1 a.2, fs ++ (refusal? o m).toList) := by
  unfold applyMember taken? refusal?
  split
  · rw [Option.toList_none, List.append_nil]
    rfl
  · rename_i key v _
    simp only [Options.set_eq h]
    cases OptionKey.acceptNamed (JsonText.greedy key) (valueText v) with
    | error f => rfl
    | ok a =>
      simp only [Option.toList_none, List.append_nil]
      rfl

/-- What members come to: the values of those that are taken, and the refusals of the others. -/
theorem foldl_applyMember (h : o.Usable) (fs : List AssignFault) (ms : List (Bytes × JsonValue)) :
    ms.foldl applyMember (o, fs) =
      ((ms.filterMap taken?).foldl (fun o a => o.put a.1 a.2) o,
        fs ++ ms.filterMap (refusal? o)) := by
  induction ms generalizing o fs with
  | nil => rw [List.filterMap_nil, List.filterMap_nil, List.append_nil]; rfl
  | cons m ms ih =>
    rw [List.foldl_cons, applyMember_eq h]
    have hnext : ((taken? m).elim o fun a => o.put a.1 a.2).Usable := by
      cases htaken : taken? m with
      | none => exact h
      | some a => exact Options.usable_put h (of_taken? htaken).2.1 (of_taken? htaken).2.2
    rw [ih hnext]
    have hsame : refusal? ((taken? m).elim o fun a => o.put a.1 a.2) = refusal? o :=
      funext fun m' => refusal?_eq hnext h m'
    rw [hsame, List.append_assoc]
    congr 1
    · cases htaken : taken? m with
      | none => rw [List.filterMap_cons_none htaken]; rfl
      | some a => rw [List.filterMap_cons_some htaken]; rfl
    · cases hrefusal : refusal? o m with
      | none => rw [List.filterMap_cons_none hrefusal]; rfl
      | some f => rw [List.filterMap_cons_some hrefusal]; rfl

theorem applyMembers_eq (h : o.Usable) (ms : List (Bytes × JsonValue)) :
    applyMembers o ms =
      ((ms.filterMap taken?).foldl (fun o a => o.put a.1 a.2) o, ms.filterMap (refusal? o)) :=
  foldl_applyMember h [] ms

/-- Members with names of their own come to the same options in any order, and the same members are
refused. -/
theorem applyMembers_perm (h : o.Usable) (hperm : ms.Perm ms')
    (hnames : (ms.map fun m => JsonText.greedy m.1).Nodup) :
    (applyMembers o ms).1 = (applyMembers o ms').1 ∧
      (applyMembers o ms).2.Perm (applyMembers o ms').2 := by
  rw [applyMembers_eq h, applyMembers_eq h]
  refine ⟨(hperm.filterMap taken?).foldl_eq' (fun a ha b hb z => ?_) o, hperm.filterMap _⟩
  obtain ⟨m, hm, hma⟩ := List.mem_filterMap.mp ha
  obtain ⟨n, hn, hnb⟩ := List.mem_filterMap.mp hb
  by_cases hkeys : a.1 = b.1
  · have hsame : m = n := by
      refine List.inj_on_of_nodup_map hnames hm hn ?_
      rw [← (of_taken? hma).1, ← (of_taken? hnb).1, hkeys]
    subst hsame
    obtain rfl := Option.some.inj (hma.symm.trans hnb)
    rfl
  · exact Options.put_comm hkeys

/-! ## Settings -/

/-- The members of the section of a settings text. -/
def members? (text : Bytes) : Option (List (Bytes × JsonValue)) :=
  match (JsonValue.parse? text).bind (lookup? sectionPath) with
  | some (.object _ _ members) => some members
  | _ => none

/-- Whether two outcomes differ at most in the order of the refused members. -/
inductive SameUpToOrder : Options × Option Fault → Options × Option Fault → Prop
  | taken (o : Options) : SameUpToOrder (o, none) (o, none)
  | refused (o : Options) {fs fs' : List AssignFault} (perm : fs.Perm fs') :
    SameUpToOrder (o, some (.rejected fs)) (o, some (.rejected fs'))

theorem applied_eq {text : Bytes} (base : Options) (h : members? text = some ms) :
    applied base text = match Fault.joined? (applyMembers base ms).2 with
      | some f => (base, some f)
      | none => ((applyMembers base ms).1, none) := by
  unfold members? at h
  unfold applied
  cases hparse : JsonValue.parse? text with
  | none =>
    rw [hparse] at h
    exact nomatch h
  | some v =>
    simp only [hparse, Option.bind_some] at h
    cases hlookup : lookup? sectionPath v with
    | none =>
      rw [hlookup] at h
      exact nomatch h
    | some w =>
      rw [hlookup] at h
      cases w with
      | object _ _ members =>
        obtain rfl := Option.some.inj h
        cases hjoined : Fault.joined? (applyMembers base members).2 <;>
          simp only [hlookup, hjoined]
      | null | bool | number | string | array => exact nomatch h

theorem applied_of_fault {base : Options} {text : Bytes} {f : Fault}
    (h : (applied base text).2 = some f) : (applied base text).1 = base := by
  revert h
  unfold applied
  cases JsonValue.parse? text with
  | none => exact fun _ => rfl
  | some v =>
    simp only
    split
    · exact nofun
    · exact nofun
    · rename_i members _
      cases Fault.joined? (applyMembers base members).2 with
      | some f => exact fun _ => rfl
      | none => exact nofun
    · exact fun _ => rfl

/-- The refusals of the members are told one after another, each what it would be on its own. -/
theorem applied_fault (h : o.Usable) {text : Bytes} (hmembers : members? text = some ms) :
    (applied o text).2 = Fault.joined? (ms.filterMap (refusal? o)) := by
  rw [applied_eq o hmembers, applyMembers_eq h]
  cases Fault.joined? (ms.filterMap (refusal? o)) <;> rfl

theorem applied_perm {base : Options} (h : base.Usable) {text text' : Bytes}
    (hmembers : members? text = some ms) (hmembers' : members? text' = some ms')
    (hperm : ms.Perm ms') (hnames : (ms.map fun m => JsonText.greedy m.1).Nodup) :
    SameUpToOrder (applied base text) (applied base text') := by
  rw [applied_eq base hmembers, applied_eq base hmembers']
  obtain ⟨hsame, hfaults⟩ := applyMembers_perm h hperm hnames
  generalize applyMembers base ms = r, applyMembers base ms' = r' at hsame hfaults ⊢
  obtain ⟨o, fs⟩ := r
  obtain ⟨o', fs'⟩ := r'
  obtain rfl : o = o' := hsame
  cases fs with
  | nil =>
    obtain rfl : fs' = [] := List.nil_perm.mp hfaults
    exact .taken o
  | cons f fs =>
    cases fs' with
    | nil => exact absurd (List.perm_nil.mp hfaults) (List.cons_ne_nil f fs)
    | cons f' fs' => exact .refused base hfaults

end Settings

/-! ## Sessions -/

/-- The notification by which an editor sends settings. -/
def Message.settings (text : Bytes) : Message where
  version := utf8 "2.0"
  id := none
  method := utf8 "workspace/didChangeConfiguration"
  params := some text

namespace Session

/-- A session after settings were sent to it one after another. -/
def afterSettings (s : Session) (texts : List Bytes) : Session :=
  texts.foldl (fun s text => (s.dispatch (.settings text)).session) s

theorem dispatch_settings (s : Session) (text : Bytes) :
    (s.dispatch (.settings text)).session =
      { s with options :=
          if (Settings.applied s.base text).2.isNone then (Settings.applied s.base text).1
          else s.options } := by
  have hmethod : Method.ofName (utf8 "workspace/didChangeConfiguration") = .changeSettings := by
    decide +kernel
  have hname : (Message.settings text).method = utf8 "workspace/didChangeConfiguration" := rfl
  have hparams : (Message.settings text).params.getD [] = text := rfl
  rw [dispatch_of_notification rfl, hname, hmethod, perform, changeSettings, configure, hparams,
    Settings.apply]
  rcases Settings.applied s.base text with ⟨o, _ | f⟩ <;> rfl

/-- Only the last settings that were not refused show in the options of a session. -/
theorem options_afterSettings (s : Session) (texts : List Bytes) :
    (s.afterSettings texts).options =
      ((texts.filter fun text => (Settings.applied s.base text).2.isNone).getLast?.map fun text =>
        (Settings.applied s.base text).1).getD s.options := by
  induction texts generalizing s with
  | nil => rfl
  | cons text texts ih =>
    unfold afterSettings at ih ⊢
    rw [List.foldl_cons, ih, dispatch_settings, List.filter_cons]
    cases (Settings.applied s.base text).2 with
    | some f => rfl
    | none =>
      simp only [Option.isNone_none, if_true, List.getLast?_cons, Option.map_some, Option.getD_some]
      cases (texts.filter fun text => (Settings.applied s.base text).2.isNone).getLast? <;> rfl

end Session

/-! ## All updates -/

open Settings in
/-- Setting one of the usable options changes nothing or that option alone, to something usable, and
settings of different options commute. Settings are put on top of options wholly or not at all; the
order of their members shows only in the order of the refusals, which are told in the order of the
members, one for each that would be refused on its own. A session has the options of the last
settings that were put on top of its own. -/
theorem updates_isolated {o : Options} (h : o.Usable) :
    (∀ name text, (∃ f, o.set name text = (o, some f)) ∨
      ∃ next, o.set name text = (next, none) ∧ next.Usable ∧ o.SameBut name next) ∧
    (∀ name name' text text', name ≠ name' →
      ((o.set name text).1.set name' text').1 = ((o.set name' text').1.set name text).1 ∧
      ((o.set name text).1.set name' text').2 = (o.set name' text').2 ∧
      ((o.set name' text').1.set name text).2 = (o.set name text).2) ∧
    (∀ base text f, (applied base text).2 = some f → (applied base text).1 = base) ∧
    (∀ text text' ms ms', members? text = some ms → members? text' = some ms' → ms.Perm ms' →
      (ms.map fun m => JsonText.greedy m.1).Nodup →
      SameUpToOrder (applied o text) (applied o text')) ∧
    (∀ text ms, members? text = some ms →
      (applied o text).2 = Fault.joined? (ms.filterMap (refusal? o))) ∧
    ∀ f base json texts, ((Session.start f base json).afterSettings texts).options =
      ((texts.filter fun text => (applied base text).2.isNone).getLast?.map fun text =>
        (applied base text).1).getD base := by
  refine ⟨Options.set_spec h, fun name name' text text' hne => ⟨Options.set_comm h hne text text',
    Options.set_fault (Options.usable_set h name text) h name' text',
    Options.set_fault (Options.usable_set h name' text') h name text⟩,
    fun base text f => applied_of_fault, fun text text' ms ms' => applied_perm h,
    fun text ms => applied_fault h, fun f base json => Session.options_afterSettings _⟩

namespace Settings

/-- A settings text with two members of the section, both numbers. -/
def pairText (first second : String × String) : Bytes :=
  let member (m : String × String) := utf8 "\"" ++ utf8 m.1 ++ utf8 "\":" ++ utf8 m.2
  utf8 "\x7b\"settings\":\x7b\"thrift\":\x7b\"format\":\x7b" ++ member first ++ utf8 "," ++
    member second ++ utf8 "\x7d\x7d\x7d\x7d"

/-- Two sizes are set in either order. -/
theorem updates_isolated_twoSizes : Options.standard.Usable ∧
    SameUpToOrder (applied .standard (pairText ("tabSize", "2") ("indentSize", "3")))
      (applied .standard (pairText ("indentSize", "3") ("tabSize", "2"))) ∧
    applied .standard (pairText ("tabSize", "2") ("indentSize", "3")) =
      ({ Options.standard with tabSize := 2, indentSize := 3 }, none) := by
  have h : Options.standard.Usable := rfl
  refine ⟨h, ?_, by decide +kernel⟩
  exact (updates_isolated h).2.2.2.1 _ _
    [(utf8 "tabSize", .number (utf8 "2")), (utf8 "indentSize", .number (utf8 "3"))]
    [(utf8 "indentSize", .number (utf8 "3")), (utf8 "tabSize", .number (utf8 "2"))]
    (by cbv) (by cbv) (.swap _ _ []) (by decide +kernel)

/-- Two members that name no option are refused in their order. -/
theorem applied_differs_twoUnknown :
    ∃ ms ms', members? (pairText ("a", "1") ("b", "1")) = some ms ∧
      members? (pairText ("b", "1") ("a", "1")) = some ms' ∧ ms.Perm ms' ∧
      (ms.map fun m => JsonText.greedy m.1).Nodup ∧ Options.standard.Usable ∧
      applied .standard (pairText ("a", "1") ("b", "1")) ≠
        applied .standard (pairText ("b", "1") ("a", "1")) :=
  ⟨[(utf8 "a", .number (utf8 "1")), (utf8 "b", .number (utf8 "1"))],
    [(utf8 "b", .number (utf8 "1")), (utf8 "a", .number (utf8 "1"))],
    by cbv, by cbv, .swap _ _ [], by decide +kernel, rfl, by decide +kernel⟩

end Settings

end ThriftLayout
