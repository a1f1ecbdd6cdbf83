import ThriftLayout.Editor.Store
import ThriftLayout.Proofs.Lookup
import ThriftLayout.Proofs.Text.LineNumbers
import ThriftLayout.Proofs.Text.MinimalEdit

/-!
# What the store holds after some requests

An editor keeps its own copy of each document it has open: what it opened and, in order, the changes
that were granted since. The store has no more than the last version of each document, and this is
what the copy comes to.

Results:

* `ContentChange.applyAll_fails_iff`: replacements fail only by a range that the text has not got.
* `StoreRequest.perform_cases`: what one request can do to a store.
* `Log.run_mirrors`: what a store holds after any requests, and what the next one does to it.
-/
namespace ThriftLayout

/-! ## Replacements -/

section Replacements

/-- The place of some units into a line lies in the line. -/
theorem Units16.seek_le {want units start n : Nat} {rs : List Utf8.Rune}
    (h : seek want units start rs = .ok n) : n ≤ start + (rs.flatMap (·.text)).length := by
  induction rs generalizing units start with
  | nil =>
    obtain rfl : start = n := Except.ok.inj h
    exact Nat.le_add_right _ _
  | cons r rs ih =>
    unfold seek at h
    rw [List.flatMap_cons, List.length_append]
    split at h
    · obtain rfl : start = n := Except.ok.inj h
      omega
    split at h
    · exact nomatch h
    simp only at h
    split at h
    · exact nomatch h
    · have hrest := ih h
      omega

theorem Units16.offset_le {line : Bytes} {want n : Nat} (h : offset line want = .ok n) :
    n ≤ line.length := by
  have hle := seek_le h
  rwa [Utf8.runes_flatMap_text, Nat.zero_add] at hle

/-- The offset of a position lies in the text. -/
theorem Lines.offset16_le {s : Bytes} {pos : Position16} {n : Nat}
    (h : (Lines.mk s).offset16 pos = .ok n) : n ≤ s.length := by
  obtain ⟨k, hk, h⟩ := exists_of_bind_eq_ok h
  have hline : k < (Lines.mk s).count := by
    unfold Lines.line at hk
    split at hk
    · rename_i hbounds
      obtain rfl := Except.ok.inj hk
      omega
    · exact nomatch hk
  simp only at h
  split at h
  · exact nomatch h
  obtain ⟨column, hcolumn, h⟩ := exists_of_bind_eq_ok h
  obtain rfl : (Lines.mk s).startOf k + column = n := Except.ok.inj h
  have hinside := Units16.offset_le (eq_ok_of_mapError hcolumn)
  have hcontent : (lineContent ((Lines.mk s).textOf k)).length ≤
      ((Lines.mk s).textOf k).length := by
    rw [lineContent, List.length_take]
    omega
  have hends := textOf_le hline
  omega

end Replacements

namespace ContentChange

/-- Whether a replacement has a range that a text has not got: no two places in order are its
ends. -/
def Rejected (c : ContentChange) (src : Bytes) : Prop :=
  ∃ r ∈ c.range, ∀ start stop, (Lines.mk src).offset16 r.start = .ok start →
    (Lines.mk src).offset16 r.stop = .ok stop → stop < start

theorem apply_between {c : ContentChange} {src : Bytes} {r : Range16} {start stop : Nat}
    (hrange : c.range = some r) (hstart : (Lines.mk src).offset16 r.start = .ok start)
    (hstop : (Lines.mk src).offset16 r.stop = .ok stop) :
    c.apply src = if stop < start then .error .changeReversed
      else .ok (src.take start ++ c.text ++ src.drop stop) := by
  unfold apply
  simp only [hrange, hstart, hstop, Except.mapError, ok_bind]
  split
  · rfl
  · rename_i hlt
    rw [applyEdits_between src c.text (Nat.le_of_not_lt hlt) (Lines.offset16_le hstop)]

/-- A replacement fails only where the text has not got its range. -/
theorem apply_fails_iff {c : ContentChange} {src : Bytes} :
    (∃ e, c.apply src = .error e) ↔ c.Rejected src := by
  unfold Rejected
  cases hrange : c.range with
  | none => simp [apply, hrange]
  | some r =>
    simp only [Option.mem_def, Option.some.injEq, exists_eq_left']
    cases hstart : (Lines.mk src).offset16 r.start with
    | error f => exact iff_of_true ⟨.changeStart f, by simp [apply, *]; rfl⟩ (by simp)
    | ok start =>
      cases hstop : (Lines.mk src).offset16 r.stop with
      | error f => exact iff_of_true ⟨.changeStop f, by simp [apply, *]; rfl⟩ (by simp)
      | ok stop =>
        rw [apply_between hrange hstart hstop]
        split <;> simp_all

theorem applyAll_append (cs ds : List ContentChange) (src : Bytes) :
    applyAll (cs ++ ds) src = applyAll cs src >>= applyAll ds := List.foldlM_append

/-- Replacements fail exactly where one of them has a range that the text it comes to has not
got. -/
theorem applyAll_fails_iff {cs : List ContentChange} {src : Bytes} :
    (∃ e, applyAll cs src = .error e) ↔
      ∃ done c rest mid, cs = done ++ c :: rest ∧ applyAll done src = .ok mid ∧
        c.Rejected mid := by
  induction cs generalizing src with
  | nil => exact iff_of_false (by simp [applyAll, pure, Except.pure]) (by simp)
  | cons d cs ih =>
    have hcons : applyAll (d :: cs) src = d.apply src >>= applyAll cs := List.foldlM_cons
    cases happly : d.apply src with
    | error e =>
      refine iff_of_true ⟨e, by rw [hcons, happly]; rfl⟩ ?_
      exact ⟨[], d, cs, src, rfl, rfl, apply_fails_iff.mp ⟨e, happly⟩⟩
    | ok next =>
      rw [hcons, happly, ok_bind, ih]
      constructor
      · rintro ⟨done, c, rest, mid, rfl, hdone, hc⟩
        refine ⟨d :: done, c, rest, mid, rfl, ?_, hc⟩
        rw [applyAll, List.foldlM_cons, happly]
        exact hdone
      · rintro ⟨done, c, rest, mid, hsplit, hdone, hc⟩
        cases done with
        | nil =>
          obtain ⟨rfl, rfl⟩ := List.cons.inj hsplit
          obtain rfl : src = mid := Except.ok.inj hdone
          obtain ⟨e, he⟩ := apply_fails_iff.mpr hc
          exact nomatch happly.symm.trans he
        | cons d' done =>
          obtain ⟨rfl, rfl⟩ := List.cons.inj hsplit
          rw [applyAll, List.foldlM_cons, happly] at hdone
          exact ⟨done, c, rest, mid, rfl, hdone, hc⟩

end ContentChange

/-! ## One request -/

namespace Store

variable {s : Store} {uri other : Bytes}

theorem get?_erase_of_ne (h : uri ≠ other) : (s.erase other).get? uri = s.get? uri :=
  lookup_filter_of_ne h s.documents

theorem get?_erase_self : (s.erase uri).get? uri = none := by
  refine List.lookup_eq_none_iff.mpr fun p hp => ?_
  have hne := (List.mem_filter.mp hp).2
  simpa [bne, Bool.beq_comm] using hne

theorem get?_put_ofText (version : Int) (text : Bytes) :
    (s.put (.ofText uri version text)).get? uri = some (.ofText uri version text) :=
  List.lookup_cons_self

theorem get?_put_of_ne {snap : Snapshot} (h : uri ≠ snap.uri) :
    (s.put snap).get? uri = s.get? uri :=
  lookup_replace_of_ne h snap s.documents

end Store

/-- The document that a request is about. -/
def StoreRequest.uri : StoreRequest → Bytes
  | .openText _ uri _ _ | .change _ uri _ _ | .close uri | .get uri | .findVersion uri _ => uri

/-- What a request does to a store where it does not fail. -/
inductive StoreRequest.Grants (s : Store) : StoreRequest → Store → Prop
  | openText (uri : Bytes) (version : Int) (text : Bytes) :
    Grants s (.openText false uri version text) (s.put (.ofText uri version text))
  | change {uri text : Bytes} {version : Int} {cs : List ContentChange} {old : Snapshot}
    (stored : s.get? uri = some old) (newer : old.version < version)
    (edited : ContentChange.applyAll cs old.text = .ok text) :
    Grants s (.change false uri version cs) (s.put (.ofText uri version text))
  | close (uri : Bytes) : Grants s (.close uri) (s.erase uri)
  | get (uri : Bytes) : Grants s (.get uri) s
  | findVersion (uri : Bytes) (version : Int) : Grants s (.findVersion uri version) s

/-- Why a change of a document is refused. -/
inductive Store.Refuses (s : Store) (canceled : Bool) (uri : Bytes) (version : Int)
    (cs : List ContentChange) : Prop
  | notOpen (absent : s.get? uri = none)
  | stale {old : Snapshot} (stored : s.get? uri = some old) (older : version ≤ old.version)
  | rejected {old : Snapshot} {done rest : List ContentChange} {c : ContentChange} {mid : Bytes}
    (stored : s.get? uri = some old) (split : cs = done ++ c :: rest)
    (reached : ContentChange.applyAll done old.text = .ok mid) (range : c.Rejected mid)
  | canceled (done : canceled = true)

namespace StoreRequest

variable {s : Store}

theorem change_cases (canceled : Bool) (uri : Bytes) (version : Int) (cs : List ContentChange) :
    (∃ e, s.change canceled uri version cs = .error e ∧ s.Refuses canceled uri version cs) ∨
      ∃ old text, canceled = false ∧ s.get? uri = some old ∧ old.version < version ∧
        ContentChange.applyAll cs old.text = .ok text ∧
        s.change canceled uri version cs =
          .ok (s.put (.ofText uri version text), .ofText uri version text) := by
  unfold Store.change
  cases hget : s.get? uri with
  | none => exact .inl ⟨_, rfl, .notOpen hget⟩
  | some old =>
    simp only
    by_cases hversion : version ≤ old.version
    · exact .inl ⟨_, if_pos hversion, .stale hget hversion⟩
    rw [if_neg hversion]
    cases hedit : ContentChange.applyAll cs old.text with
    | error e =>
      obtain ⟨done, c, rest, mid, hsplit, hdone, hc⟩ :=
        ContentChange.applyAll_fails_iff.mp ⟨e, hedit⟩
      exact .inl ⟨e, rfl, .rejected hget hsplit hdone hc⟩
    | ok text =>
      cases canceled with
      | true => exact .inl ⟨_, rfl, .canceled rfl⟩
      | false => exact .inr ⟨old, text, rfl, rfl, by omega, hedit, rfl⟩

/-- A request fails and leaves the store as it was, or it is granted. -/
theorem perform_cases (s : Store) (r : StoreRequest) :
    (∃ e, r.perform (some s) = (some s, .error e)) ∨
      ∃ next answer, r.perform (some s) = (some next, .ok answer) ∧ r.Grants s next := by
  cases r with
  | openText canceled uri version text =>
    cases canceled with
    | true => exact .inl ⟨.canceled, rfl⟩
    | false => exact .inr ⟨_, _, rfl, .openText uri version text⟩
  | change canceled uri version cs =>
    rcases change_cases (s := s) canceled uri version cs with
      ⟨e, hfail, -⟩ | ⟨old, text, rfl, hget, hversion, hedit, hdone⟩
    · exact .inl ⟨e, by simp only [perform, perform.write, hfail]⟩
    · refine .inr ⟨_, some (.ofText uri version text), ?_, .change hget hversion hedit⟩
      simp only [perform, perform.write, hdone]
  | close uri => exact .inr ⟨_, _, rfl, .close uri⟩
  | get uri => exact .inr ⟨_, _, rfl, .get uri⟩
  | findVersion uri version =>
    show (∃ e, (some s, ((s.find uri (some version)).map some)) = (some s, Except.error e)) ∨ _
    cases hfind : s.find uri (some version) with
    | error e => exact .inl ⟨e, rfl⟩
    | ok snap =>
      refine .inr ⟨s, some snap, ?_, .findVersion uri version⟩
      show (some s, ((s.find uri (some version)).map some)) = _
      rw [hfind]
      rfl

/-- A document is opened whatever is stored, unless the request is canceled. -/
theorem openText_fails_iff {canceled : Bool} {uri : Bytes} {version : Int} {text : Bytes} :
    (∃ e, ((openText canceled uri version text).perform (some s)).2 = .error e) ↔
      canceled = true := by
  cases canceled with
  | false => exact iff_of_false nofun nofun
  | true => exact iff_of_true ⟨.canceled, rfl⟩ rfl

theorem change_fails_iff {canceled : Bool} {uri : Bytes} {version : Int}
    {cs : List ContentChange} :
    (∃ e, ((change canceled uri version cs).perform (some s)).2 = .error e) ↔
      s.Refuses canceled uri version cs := by
  rcases change_cases (s := s) canceled uri version cs with
    ⟨e, hfail, hwhy⟩ | ⟨old, text, rfl, hget, hversion, hedit, hdone⟩
  · exact iff_of_true ⟨e, by simp only [perform, perform.write, hfail]⟩ hwhy
  · refine iff_of_false ?_ ?_
    · simp [perform, perform.write, hdone]
    · rintro (habsent | ⟨hold, hstale⟩ | ⟨hold, hsplit, hreached, hrange⟩ | hcanceled)
      · exact nomatch hget.symm.trans habsent
      · obtain rfl := Option.some.inj (hget.symm.trans hold)
        omega
      · obtain rfl := Option.some.inj (hget.symm.trans hold)
        obtain ⟨e, he⟩ :=
          ContentChange.applyAll_fails_iff.mpr ⟨_, _, _, _, hsplit, hreached, hrange⟩
        exact nomatch hedit.symm.trans he
      · exact nomatch hcanceled

theorem Grants.get?_of_ne {r : StoreRequest} {next : Store} (h : r.Grants s next) {uri : Bytes}
    (hne : uri ≠ r.uri) : next.get? uri = s.get? uri := by
  cases h with
  | openText other version text => exact Store.get?_put_of_ne hne
  | change stored newer edited => exact Store.get?_put_of_ne hne
  | close other => exact Store.get?_erase_of_ne hne
  | get other => rfl
  | findVersion other version => rfl

end StoreRequest

/-! ## The copies that a client keeps -/

/-- A document as a client has it: what it opened and what it has changed since, each time with
the version. -/
structure ClientCopy where
  version : Int
  text : Bytes
  changes : List (Int × List ContentChange)

namespace ClientCopy

/-- The versions since the document was opened. -/
def versions (c : ClientCopy) : List Int := c.version :: c.changes.map Prod.fst

/-- The replacements since the document was opened. -/
def edits (c : ClientCopy) : List ContentChange := c.changes.flatMap Prod.snd

/-- What a granted request makes of the copy of a document. -/
def hear (uri : Bytes) (c? : Option ClientCopy) (r : StoreRequest) : Option ClientCopy :=
  if r.uri = uri then
    match r with
    | .openText _ _ version text => some ⟨version, text, []⟩
    | .change _ _ version cs => c?.map fun c => { c with changes := c.changes ++ [(version, cs)] }
    | .close _ => none
    | .get _ | .findVersion _ _ => c?
  else c?

def ofGranted (uri : Bytes) (rs : List StoreRequest) : Option ClientCopy :=
  rs.foldl (hear uri) none

/-- Whether what is stored of a document is what a copy comes to: the versions went up, the last
one is stored, and the text that was opened became the stored one by the replacements in order. -/
inductive Agrees (uri : Bytes) : Option ClientCopy → Option Snapshot → Prop
  | closed : Agrees uri none none
  | opened {c : ClientCopy} {snap : Snapshot} (increasing : c.versions.Pairwise (· < ·))
    (last : c.versions.getLast? = some snap.version)
    (edited : ContentChange.applyAll c.edits c.text = .ok snap.text)
    (parsed : snap.document = .parse uri snap.text) : Agrees uri (some c) (some snap)

variable {uri text : Bytes} {version : Int} {cs : List ContentChange} {old : Snapshot}
  {c? : Option ClientCopy}

theorem Agrees.open (uri : Bytes) (version : Int) (text : Bytes) :
    Agrees uri (some ⟨version, text, []⟩) (some (.ofText uri version text)) :=
  .opened (List.pairwise_singleton ..) rfl rfl rfl

/-- Versions that go up stay at or below the last one. -/
theorem le_of_getLast? {vs : List Int} {v : Int} (h : vs.Pairwise (· < ·))
    (hlast : vs.getLast? = some v) : ∀ w ∈ vs, w ≤ v := by
  obtain ⟨before, rfl⟩ := List.getLast?_eq_some_iff.mp hlast
  intro w hw
  rcases List.mem_append.mp hw with hw | hw
  · exact Int.le_of_lt ((List.pairwise_append.mp h).2.2 w hw v (List.mem_singleton_self v))
  · exact Int.le_of_eq (List.mem_singleton.mp hw)

/-- A change that is granted goes on where the copy of the client ended. -/
theorem Agrees.change (h : Agrees uri c? (some old)) (hnewer : old.version < version)
    (hedit : ContentChange.applyAll cs old.text = .ok text) :
    Agrees uri (c?.map fun c => { c with changes := c.changes ++ [(version, cs)] })
      (some (.ofText uri version text)) := by
  obtain _ | @⟨c, _, hincreasing, hlast, hedited, -⟩ := h
  have hversions : ({ c with changes := c.changes ++ [(version, cs)] } : ClientCopy).versions =
      c.versions ++ [version] := by
    simp [versions]
  have hedits : ({ c with changes := c.changes ++ [(version, cs)] } : ClientCopy).edits =
      c.edits ++ cs := by
    simp [edits]
  have hbelow := le_of_getLast? hincreasing hlast
  rw [Option.map_some]
  refine .opened ?_ ?_ ?_ rfl
  · rw [hversions, List.pairwise_append]
    refine ⟨hincreasing, List.pairwise_singleton .., fun v hv w hw => ?_⟩
    rw [List.mem_singleton.mp hw]
    exact Int.lt_of_le_of_lt (hbelow v hv) hnewer
  · rw [hversions, List.getLast?_concat]
    rfl
  · rw [hedits, ContentChange.applyAll_append, hedited]
    exact hedit

end ClientCopy

/-- A store with the requests it granted so far. -/
structure Log where
  store : Option Store
  granted : List StoreRequest

namespace Log

/-- Asks one more thing of the store. -/
def ask (l : Log) (r : StoreRequest) : Log :=
  match r.perform l.store with
  | (next, .ok _) => ⟨next, l.granted ++ [r]⟩
  | (next, .error _) => ⟨next, l.granted⟩

/-- What requests make of an empty store, one after another. -/
def run (rs : List StoreRequest) : Log := rs.foldl ask ⟨some .empty, []⟩

/-- A store holds what clients made of it by the requests it granted. -/
structure Mirrors (s : Store) (granted : List StoreRequest) : Prop where
  /-- Each document was read from its text. -/
  parsed : ∀ p ∈ s.documents, p.2.document = .parse p.1 p.2.text
  /-- Each document is what its client's copy comes to. -/
  agrees : ∀ uri, ClientCopy.Agrees uri (ClientCopy.ofGranted uri granted) (s.get? uri)

variable {s next : Store} {granted : List StoreRequest} {r : StoreRequest}

theorem parsed_put {snap : Snapshot} (hsnap : snap.document = .parse snap.uri snap.text)
    (h : ∀ p ∈ s.documents, p.2.document = .parse p.1 p.2.text) :
    ∀ p ∈ (s.put snap).documents, p.2.document = .parse p.1 p.2.text :=
  List.forall_mem_cons.mpr ⟨hsnap, fun p hp => h p (List.mem_filter.mp hp).1⟩

theorem ofGranted_concat (uri : Bytes) (granted : List StoreRequest) (r : StoreRequest) :
    ClientCopy.ofGranted uri (granted ++ [r]) =
      ClientCopy.hear uri (ClientCopy.ofGranted uri granted) r := by
  rw [ClientCopy.ofGranted, List.foldl_append]
  rfl

/-- A request that is granted does to the store what the client makes of its copy. -/
theorem Mirrors.grant (h : Mirrors s granted) (hgrant : r.Grants s next) :
    Mirrors next (granted ++ [r]) where
  parsed := by
    cases hgrant with
    | openText uri version text => exact parsed_put rfl h.parsed
    | change stored newer edited => exact parsed_put rfl h.parsed
    | close uri => exact fun p hp => h.parsed p (List.mem_filter.mp hp).1
    | get uri => exact h.parsed
    | findVersion uri version => exact h.parsed
  agrees := by
    intro uri
    have hagrees := h.agrees uri
    rw [ofGranted_concat]
    unfold ClientCopy.hear
    split
    · rename_i huri
      subst huri
      cases hgrant with
      | openText uri version text =>
        show ClientCopy.Agrees uri _ ((s.put (.ofText uri version text)).get? uri)
        rw [Store.get?_put_ofText]
        exact .open uri version text
      | @change uri text version cs old stored newer edited =>
        show ClientCopy.Agrees uri _ ((s.put (.ofText uri version text)).get? uri)
        rw [Store.get?_put_ofText]
        change ClientCopy.Agrees uri _ (s.get? uri) at hagrees
        rw [stored] at hagrees
        exact hagrees.change newer edited
      | close uri =>
        show ClientCopy.Agrees uri none ((s.erase uri).get? uri)
        rw [Store.get?_erase_self]
        exact .closed
      | get uri => exact hagrees
      | findVersion uri version => exact hagrees
    · rename_i hne
      rwa [hgrant.get?_of_ne (Ne.symm hne)]

theorem mirrors_empty : Mirrors .empty [] := ⟨nofun, fun _ => .closed⟩

def Holds (l : Log) : Prop := ∃ s, l.store = some s ∧ Mirrors s l.granted

theorem Holds.ask {l : Log} (h : l.Holds) (r : StoreRequest) : (l.ask r).Holds := by
  obtain ⟨s, hstore, hmirrors⟩ := h
  unfold Log.ask
  rw [hstore]
  rcases r.perform_cases s with ⟨e, hsame⟩ | ⟨next, answer, hgranted, hgrants⟩
  · rw [hsame]
    exact ⟨s, rfl, hmirrors⟩
  · rw [hgranted]
    exact ⟨next, rfl, hmirrors.grant hgrants⟩

theorem run_holds (rs : List StoreRequest) : (run rs).Holds := by
  suffices hfrom : ∀ l : Log, l.Holds → (rs.foldl Log.ask l).Holds from
    hfrom _ ⟨.empty, rfl, mirrors_empty⟩
  induction rs with
  | nil => exact fun l hl => hl
  | cons r rs ih => exact fun l hl => ih (l.ask r) (hl.ask r)

/-- What any requests make of an empty store. A request that fails leaves the store as it was. A
document is opened unless the request is canceled, and closing one never fails. A change fails
exactly when the document is not open, the version is not newer, a range is not in the text or the
request is canceled. A request that is granted changes one document only. Each document was read
from its text, and it is what the copy of its client comes to: since it was opened the versions went
up, and the changes were made to its text in order. -/
theorem run_mirrors (rs : List StoreRequest) :
    ∃ s, (run rs).store = some s ∧ Mirrors s (run rs).granted ∧
      (∀ (r : StoreRequest) next e, r.perform (some s) = (next, .error e) → next = some s) ∧
      (∀ canceled uri version text,
        (∃ e, ((StoreRequest.openText canceled uri version text).perform (some s)).2 = .error e) ↔
          canceled = true) ∧
      (∀ canceled uri version cs,
        (∃ e, ((StoreRequest.change canceled uri version cs).perform (some s)).2 = .error e) ↔
          s.Refuses canceled uri version cs) ∧
      (∀ uri e, ((StoreRequest.close uri).perform (some s)).2 ≠ .error e) ∧
      ∀ (r : StoreRequest) next answer, r.perform (some s) = (next, .ok answer) →
        ∃ t, next = some t ∧ Mirrors t ((run rs).granted ++ [r]) ∧
          ∀ uri, uri ≠ r.uri → t.get? uri = s.get? uri := by
  obtain ⟨s, hstore, hmirrors⟩ := run_holds rs
  refine ⟨s, hstore, hmirrors, ?_, fun _ _ _ _ => StoreRequest.openText_fails_iff,
    fun _ _ _ _ => StoreRequest.change_fails_iff, fun _ _ => nofun, ?_⟩
  · intro r next e hfail
    rcases r.perform_cases s with ⟨e', hsame⟩ | ⟨t, answer, hgranted, -⟩
    · exact (Prod.mk.inj (hfail.symm.trans hsame)).1
    · exact nomatch (Prod.mk.inj (hfail.symm.trans hgranted)).2
  · intro r next answer hdone
    rcases r.perform_cases s with ⟨e', hsame⟩ | ⟨t, answer', hgranted, hgrants⟩
    · exact nomatch (Prod.mk.inj (hdone.symm.trans hsame)).2
    · exact ⟨t, (Prod.mk.inj (hdone.symm.trans hgranted)).1, hmirrors.grant hgrants,
        fun uri => hgrants.get?_of_ne⟩

/-- The address of a document. -/
def docUri : Bytes := utf8 "a.thrift"

/-- A document that is opened, changed to the version it has already, and changed to the next. -/
def twoVersions : List StoreRequest :=
  [.openText false docUri 1 (utf8 "struct S"), .change false docUri 1 [],
    .change false docUri 2 [⟨some ⟨⟨0, 0⟩, ⟨0, 6⟩⟩, utf8 "enum"⟩]]

/-- The first of the two changes is not granted, and neither is one to the version that is stored
in the end. -/
theorem run_mirrors_twoVersions :
    ∃ s, (run twoVersions).store = some s ∧ Mirrors s (run twoVersions).granted ∧
      (run twoVersions).granted.length = 2 ∧
      (s.get? docUri).map (fun snap => (snap.version, snap.text)) = some (2, utf8 "enum S") ∧
      ∃ e, ((StoreRequest.change false docUri 2 []).perform (some s)).2 = .error e := by
  obtain ⟨s, hstore, hmirrors, -, -, hchange, -⟩ := run_mirrors twoVersions
  have hstored : ((run twoVersions).store.bind (·.get? docUri)).map (fun snap =>
      (snap.version, snap.text)) = some (2, utf8 "enum S") := by decide +kernel
  rw [hstore, Option.bind_some] at hstored
  obtain ⟨snap, hsnap, hversion⟩ := Option.map_eq_some_iff.mp hstored
  have hlast : snap.version = 2 := congrArg Prod.fst hversion
  refine ⟨s, hstore, hmirrors, by decide +kernel, hstored, ?_⟩
  exact (hchange false docUri 2 []).mpr (.stale hsnap (Int.le_of_eq hlast.symm))

end Log

end ThriftLayout
