import ThriftLayout.Editor.Session
import ThriftLayout.Proofs.Editor.Faults

/-!
# One message

A session refuses a message, because it was canceled or came after a shutdown, or carries it out.
What is sent then is one answer to a request, nothing to a notification, or what was found in a
document. Two things are remembered for later messages: requests that were canceled before they
came, and the shutdown.

Results:

* `Session.dispatch_cases`: a message is refused, or it is carried out.
* `Session.perform_sends`: what is sent for a message that is carried out.
* `Session.mem_canceled_dispatch`, `Session.shuttingDown_dispatch`: what is remembered of a message.
* `Session.exited_dispatch`: when a session exits.
-/
namespace ThriftLayout

namespace Session

/-! ## What one message leads to -/

/-- The frames that answer a message: one if it is a request, and none otherwise. -/
def answerTo (m : Message) (a : Answer) : List Outgoing :=
  (m.id.map fun id => Outgoing.response (some id) a).toList

def Method.answered : Method → Bool
  | .begin | .shutdown | .format | .formatRange | .unknown => true
  | _ => false

def failure? : Answer → Option ErrorKind
  | .failed kind _ => some kind
  | _ => none

/-- The documents after a notification about one of them, and the address of that one, if the
notification can be followed. -/
def synced? (s : Session) (m : Message) : Option (Store × Bytes) :=
  match Method.ofName m.method with
  | .didOpen => do
    let t ← m.read? .blank (Wire.targetParams Wire.openTarget)
    let (store, _) ← (s.store.openText false t.uri t.version t.text).toOption
    return (store, t.uri)
  | .didChange => do
    let p ← m.read? .blank Wire.changeParams
    let (store, _) ←
      (s.store.change false p.target.uri p.target.version p.changes.items).toOption
    return (store, p.target.uri)
  | .didClose => do
    let t ← m.read? .blank (Wire.targetParams Wire.plainTarget)
    return (s.store.erase t.uri, t.uri)
  | _ => none

/-- What is sent when a message is carried out. -/
inductive Sends (s : Session) (m : Message) : List Outgoing → Prop
  | nothing (quiet : (Method.ofName m.method).answered = false) (unsynced : s.synced? m = none) :
    Sends s m []
  | answer {a : Answer} (kind : failure? a ≠ some .requestCanceled)
    (unsynced : s.synced? m = none) : Sends s m (answerTo m a)
  | published {store : Store} {uri : Bytes} (synced : s.synced? m = some (store, uri))
    (notices : List Notice) :
    Sends s m [.published uri ((store.get? uri).map (·.version)) notices]

variable {s : Session} {m : Message}

theorem reply_sent (s : Session) (m : Message) (a : Answer) :
    (s.reply m a).sent = answerTo m a := by
  unfold reply answerTo
  cases m.id <;> rfl

theorem reply_session (s : Session) (m : Message) (a : Answer) : (s.reply m a).session = s := by
  unfold reply
  cases m.id <;> rfl

theorem publish_sent (s : Session) (uri : Bytes) : ∃ notices,
    (publish s uri).sent = [.published uri ((s.store.get? uri).map (·.version)) notices] := by
  unfold publish
  cases s.store.get? uri with
  | none => exact ⟨[], rfl⟩
  | some snap => exact ⟨_, rfl⟩

/-- A method without documents to synchronize leads to an answer. -/
theorem sends_reply (s' : Session) {a : Answer} (hkind : failure? a ≠ some .requestCanceled)
    (hsync : s.synced? m = none) : Sends s m (s'.reply m a).sent := by
  rw [reply_sent]
  exact .answer hkind hsync

theorem sends_publish {store : Store} {uri : Bytes} (h : s.synced? m = some (store, uri)) :
    Sends s m (publish { s with store := store } uri).sent := by
  obtain ⟨notices, hsent⟩ := publish_sent { s with store := store } uri
  rw [hsent]
  exact .published h notices

/-- The first request is answered, and nothing but the options is changed. -/
theorem begin_eq (s : Session) (m : Message) : ∃ options a,
    s.begin m = ({ s with options := options } : Session).reply m a ∧
      failure? a ≠ some .requestCanceled := by
  have hkept (a : Answer) (ha : failure? a ≠ some .requestCanceled) : ∃ options a',
      s.reply m a = ({ s with options := options } : Session).reply m a' ∧
        failure? a' ≠ some .requestCanceled := ⟨s.options, a, rfl, ha⟩
  unfold begin
  extract_lets settings?
  rcases settings? with _ | _ | settings
  · exact hkept _ nofun
  · exact hkept _ nofun
  simp only
  split
  · exact hkept _ nofun
  unfold configure
  cases Settings.apply s.base settings with
  | ok o => exact ⟨o, .capabilities, rfl, nofun⟩
  | error e => exact hkept _ nofun

theorem formatEdits_faults (s : Session) (p : Wire.FormatParams) :
    FaultsAre (·.kind ≠ .requestCanceled) (s.formatEdits p) := by
  unfold formatEdits Formatter.documentEdits
  refine .bind (Store.find_faults s.store _ _ |>.mapError fun _ => RequestFault.kind_store) ?_
  intro snap
  simp only [Bool.false_eq_true, if_false]
  refine .bind (Formatter.formatSource_faults.mapError fun _ => RequestFault.kind_format) ?_
  exact fun result => .of_mapError nofun

theorem rangeFormatEdits_faults (s : Session) (p : Wire.FormatParams) :
    FaultsAre (·.kind ≠ .requestCanceled) (s.rangeFormatEdits p) := by
  unfold rangeFormatEdits Formatter.rangeEdits
  refine .bind (Store.find_faults s.store _ _ |>.mapError fun _ => RequestFault.kind_store) ?_
  intro snap
  simp only [Bool.false_eq_true, if_false]
  refine .bind (Formatter.formatRange_faults.mapError fun _ => RequestFault.kind_format) ?_
  exact fun result => .of_mapError nofun

theorem replyEdits_sends (h : s.synced? m = none) {params : Decoder Wire.FormatParams}
    {edits : Wire.FormatParams → Except RequestFault (List TextEdit)}
    (hfaults : ∀ p, FaultsAre (·.kind ≠ .requestCanceled) (edits p)) :
    Sends s m (s.replyEdits m params edits).sent := by
  unfold replyEdits
  split
  · exact sends_reply s nofun h
  · split
    · exact sends_reply s nofun h
    · rename_i f hf
      exact sends_reply s (fun hkind => hfaults _ f hf (Option.some.inj hkind)) h

theorem didOpen_sends (hmethod : Method.ofName m.method = .didOpen) :
    Sends s m (s.didOpen m).sent := by
  unfold didOpen
  split
  · rename_i hread
    exact sends_reply s nofun (by simp only [synced?, hmethod, hread]; rfl)
  · rename_i t hread
    exact sends_publish (by simp only [synced?, hmethod, hread]; rfl)

theorem didChange_sends (hmethod : Method.ofName m.method = .didChange) :
    Sends s m (s.didChange m).sent := by
  unfold didChange
  split
  · rename_i hread
    exact sends_reply s nofun (by simp only [synced?, hmethod, hread]; rfl)
  · rename_i p hread
    have hsynced : s.synced? m =
        (s.store.change false p.target.uri p.target.version p.changes.items).toOption.map
          fun r => (r.1, p.target.uri) := by
      simp only [synced?, hmethod, hread, Option.bind_eq_bind, Option.bind_some]
      rw [Option.map_eq_bind]
      rfl
    split
    · rename_i store snap hchange
      exact sends_publish (by rw [hsynced, hchange]; rfl)
    · rename_i e hchange
      refine sends_reply s (fun hkind => ?_) (by rw [hsynced, hchange]; rfl)
      exact RequestFault.kind_store (Store.change_faults _ _ _ _ e hchange) (Option.some.inj hkind)

theorem didClose_sends (hmethod : Method.ofName m.method = .didClose) :
    Sends s m (s.didClose m).sent := by
  unfold didClose
  split
  · rename_i hread
    exact sends_reply s nofun (by simp only [synced?, hmethod, hread]; rfl)
  · rename_i t hread
    exact sends_publish (by simp only [synced?, hmethod, hread]; rfl)

theorem cancel_sent (s : Session) (m : Message) : (s.cancel m).sent = [] := by
  unfold cancel
  split <;> rfl

theorem changeSettings_sent (s : Session) (m : Message) : (s.changeSettings m).sent = [] := by
  unfold changeSettings
  split <;> rfl

theorem perform_sends (s : Session) (m : Message) :
    Sends s m (s.perform m (Method.ofName m.method)).sent := by
  cases hmethod : Method.ofName m.method with
  | begin =>
    obtain ⟨options, a, hbegin, hkind⟩ := s.begin_eq m
    rw [perform, hbegin]
    exact sends_reply _ hkind (by simp only [synced?, hmethod])
  | begun => exact .nothing (by rw [hmethod]; rfl) (by simp only [synced?, hmethod])
  | shutdown => exact sends_reply _ nofun (by simp only [synced?, hmethod])
  | exit => exact .nothing (by rw [hmethod]; rfl) (by simp only [synced?, hmethod])
  | cancel =>
    rw [perform, cancel_sent]
    exact .nothing (by rw [hmethod]; rfl) (by simp only [synced?, hmethod])
  | changeSettings =>
    rw [perform, changeSettings_sent]
    exact .nothing (by rw [hmethod]; rfl) (by simp only [synced?, hmethod])
  | didOpen => exact didOpen_sends hmethod
  | didChange => exact didChange_sends hmethod
  | didClose => exact didClose_sends hmethod
  | format => exact replyEdits_sends (by simp only [synced?, hmethod]) s.formatEdits_faults
  | formatRange =>
    exact replyEdits_sends (by simp only [synced?, hmethod]) s.rangeFormatEdits_faults
  | optional => exact .nothing (by rw [hmethod]; rfl) (by simp only [synced?, hmethod])
  | unknown => exact sends_reply s nofun (by simp only [synced?, hmethod])

/-- Whether a message is carried out: it is no request that was canceled, nor one that comes after
a shutdown. -/
def CarriesOut (s : Session) (m : Message) : Prop :=
  s.isCanceled m = false ∧
    (m.id = none ∨ Method.ofName m.method = .shutdown ∨ s.shuttingDown = false)

/-- A message is refused, because it was canceled or because of a shutdown, or it is carried out. -/
inductive Dispatched (s : Session) (m : Message) : Outcome → Prop
  | canceled {id : Bytes} (request : m.id = some id) (canceled : id ∈ s.canceled) :
    Dispatched s m
      ⟨{ s with canceled := s.canceled.filter fun id' => m.id != some id' },
        [.response (some id) (.failed .requestCanceled (utf8 "request cancelled"))], false⟩
  | refused {id : Bytes} (request : m.id = some id) (wanted : id ∉ s.canceled)
    (other : Method.ofName m.method ≠ .shutdown) (shut : s.shuttingDown = true) :
    Dispatched s m
      ⟨s, [.response (some id) (.failed .invalidRequest (utf8 "server is shutting down"))], false⟩
  | carriedOut (h : s.CarriesOut m) :
    Dispatched s m (s.perform m (Method.ofName m.method))

theorem isCanceled_iff : s.isCanceled m = true ↔ ∃ id, m.id = some id ∧ id ∈ s.canceled := by
  unfold isCanceled
  cases m.id with
  | none => simp
  | some id => simp

theorem not_isCanceled {id : Bytes} (h : s.isCanceled m = false) (hid : m.id = some id) :
    id ∉ s.canceled := fun hmem =>
  Bool.false_ne_true (h.symm.trans (isCanceled_iff.mpr ⟨id, hid, hmem⟩))

theorem not_carriesOut {id : Bytes} (hid : m.id = some id)
    (hother : Method.ofName m.method ≠ .shutdown) (hshut : s.shuttingDown = true) :
    ¬ s.CarriesOut m := by
  rintro ⟨-, hnone | hshutdown | hopen⟩
  · exact nomatch hid.symm.trans hnone
  · exact hother hshutdown
  · exact Bool.false_ne_true (hopen.symm.trans hshut)

theorem dispatch_cases (s : Session) (m : Message) : Dispatched s m (s.dispatch m) := by
  unfold dispatch
  simp only
  split
  · rename_i hcanceled
    obtain ⟨id, hid, hmem⟩ := isCanceled_iff.mp hcanceled
    have hcase := Dispatched.canceled hid hmem
    unfold fail reply
    rw [hid] at hcase ⊢
    exact hcase
  rename_i hcanceled
  have hwanted := Bool.eq_false_iff.mpr hcanceled
  split
  · rename_i hrefused
    simp only [Bool.and_eq_true, bne_iff_ne] at hrefused
    obtain ⟨⟨hid, hother⟩, hshut⟩ := hrefused
    obtain ⟨id, hid⟩ := Option.isSome_iff_exists.mp hid
    have hcase := Dispatched.refused hid (not_isCanceled hwanted hid) hother hshut
    unfold fail reply
    rw [hid]
    exact hcase
  · rename_i hrefused
    refine .carriedOut ⟨hwanted, ?_⟩
    cases hid : m.id with
    | none => exact .inl rfl
    | some id =>
      by_cases hshutdown : Method.ofName m.method = .shutdown
      · exact .inr (.inl hshutdown)
      · exact .inr (.inr (by simpa [hid, hshutdown] using hrefused))

theorem dispatch_of_notification (h : m.id = none) :
    s.dispatch m = s.perform m (Method.ofName m.method) := by
  unfold dispatch isCanceled
  rw [h]
  rfl

/-! ## What a session remembers -/

/-- Whether a message asks to cancel the request with an identifier. -/
def Cancels (m : Message) (id : Bytes) : Prop :=
  Method.ofName m.method = .cancel ∧ m.read? none Wire.cancelParams = some (some id)

theorem changeSettings_eq (s : Session) (m : Message) :
    ∃ options, s.changeSettings m = .silent { s with options := options } := by
  unfold changeSettings configure
  cases Settings.apply s.base (m.params.getD []) with
  | ok o => exact ⟨o, rfl⟩
  | error e => exact ⟨s.options, rfl⟩

/-- What a session remembers for later messages. -/
def memory (s : Session) : List Bytes × Bool := (s.canceled, s.shuttingDown)

/-- Whether a session goes on after a message and remembers nothing of it. -/
def GoesOn (s : Session) (o : Outcome) : Prop := o.session.memory = s.memory ∧ o.exited = false

theorem reply_goesOn {s' : Session} (h : s'.memory = s.memory) (m : Message) (a : Answer) :
    s.GoesOn (s'.reply m a) := by
  unfold reply
  split <;> exact ⟨h, rfl⟩

theorem replyEdits_goesOn (s : Session) (m : Message) (params : Decoder Wire.FormatParams)
    (edits : Wire.FormatParams → Except RequestFault (List TextEdit)) :
    s.GoesOn (s.replyEdits m params edits) := by
  unfold replyEdits
  split
  · exact reply_goesOn rfl ..
  · split <;> exact reply_goesOn rfl ..

theorem didOpen_goesOn (s : Session) (m : Message) : s.GoesOn (s.didOpen m) := by
  unfold didOpen
  split
  · exact reply_goesOn rfl ..
  · split
    · exact ⟨rfl, rfl⟩
    · exact reply_goesOn rfl ..

theorem didChange_goesOn (s : Session) (m : Message) : s.GoesOn (s.didChange m) := by
  unfold didChange
  split
  · exact reply_goesOn rfl ..
  · split
    · exact ⟨rfl, rfl⟩
    · exact reply_goesOn rfl ..

theorem didClose_goesOn (s : Session) (m : Message) : s.GoesOn (s.didClose m) := by
  unfold didClose
  split
  · exact reply_goesOn rfl ..
  · exact ⟨rfl, rfl⟩

theorem perform_goesOn (s : Session) (m : Message) (method : Method) (hcancel : method ≠ .cancel)
    (hshutdown : method ≠ .shutdown) (hexit : method ≠ .exit) :
    s.GoesOn (s.perform m method) := by
  cases method with
  | cancel => exact absurd rfl hcancel
  | shutdown => exact absurd rfl hshutdown
  | exit => exact absurd rfl hexit
  | begin =>
    obtain ⟨options, a, hbegin, -⟩ := s.begin_eq m
    rw [perform, hbegin]
    exact reply_goesOn rfl ..
  | changeSettings =>
    obtain ⟨options, hsettings⟩ := s.changeSettings_eq m
    rw [perform, hsettings]
    exact ⟨rfl, rfl⟩
  | didOpen => exact didOpen_goesOn s m
  | didChange => exact didChange_goesOn s m
  | didClose => exact didClose_goesOn s m
  | format => exact replyEdits_goesOn ..
  | formatRange => exact replyEdits_goesOn ..
  | unknown => exact reply_goesOn rfl ..
  | begun | optional => exact ⟨rfl, rfl⟩

theorem perform_memory (s : Session) (m : Message) (method : Method)
    (hcancel : method ≠ .cancel) (hshutdown : method ≠ .shutdown) :
    (s.perform m method).session.memory = s.memory := by
  by_cases hexit : method = .exit
  · rw [hexit]
    rfl
  · exact (perform_goesOn s m method hcancel hshutdown hexit).1

theorem cancel_memory (s : Session) (m : Message) :
    (s.cancel m).exited = false ∧ (s.cancel m).session.shuttingDown = s.shuttingDown ∧
      ∀ id, id ∈ (s.cancel m).session.canceled ↔
        m.read? none Wire.cancelParams = some (some id) ∨ id ∈ s.canceled := by
  unfold cancel
  split
  · rename_i id' hread
    refine ⟨rfl, rfl, fun id => ?_⟩
    rw [hread]
    simp only [Outcome.silent, List.mem_cons, List.mem_filter, bne_iff_ne, Option.some.injEq]
    constructor
    · rintro (rfl | ⟨hmem, -⟩)
      · exact .inl rfl
      · exact .inr hmem
    · rintro (rfl | hmem)
      · exact .inl rfl
      · exact (Decidable.em (id = id')).imp_right fun hne => ⟨hmem, hne⟩
  · rename_i hread
    refine ⟨rfl, rfl, fun id => ⟨.inr, ?_⟩⟩
    rintro (h | h)
    · exact (hread id h).elim
    · exact h

/-- A cancellation is remembered when it is asked for, and until the request comes. -/
theorem mem_canceled_dispatch (s : Session) (m : Message) (id : Bytes) :
    id ∈ (s.dispatch m).session.canceled ↔
      (s.CarriesOut m ∧ Cancels m id) ∨ (id ∈ s.canceled ∧ m.id ≠ some id) := by
  generalize ho : s.dispatch m = o
  cases ho ▸ s.dispatch_cases m with
  | canceled hid hmem =>
    have hnot : ¬ s.CarriesOut m := fun h => not_isCanceled h.1 hid hmem
    simp only [List.mem_filter, bne_iff_ne, hnot, false_and, false_or]
  | refused hid hwanted hother hshut =>
    have hnot : ¬ s.CarriesOut m := not_carriesOut hid hother hshut
    simp only [hnot, false_and, false_or]
    refine (and_iff_left_of_imp fun hmem hid' => ?_).symm
    obtain rfl := Option.some.inj (hid.symm.trans hid')
    exact hwanted hmem
  | carriedOut h =>
    have hid (hmem : id ∈ s.canceled) : m.id ≠ some id := fun hid =>
      not_isCanceled h.1 hid hmem
    simp only [h, true_and, and_iff_left_of_imp hid]
    by_cases hcancel : Method.ofName m.method = .cancel
    · rw [hcancel, perform, (cancel_memory s m).2.2]
      simp only [Cancels, hcancel, true_and]
    · have hsame : (s.perform m (Method.ofName m.method)).session.canceled = s.canceled := by
        by_cases hshutdown : Method.ofName m.method = .shutdown
        · rw [hshutdown, perform, reply_session]
        · exact congrArg Prod.fst (perform_memory s m _ hcancel hshutdown)
      rw [hsame]
      simp only [Cancels, hcancel, false_and, false_or]

theorem shuttingDown_dispatch (s : Session) (m : Message) :
    (s.dispatch m).session.shuttingDown = true ↔
      s.shuttingDown = true ∨ (s.CarriesOut m ∧ Method.ofName m.method = .shutdown) := by
  generalize ho : s.dispatch m = o
  cases ho ▸ s.dispatch_cases m with
  | canceled hid hmem =>
    have hnot : ¬ s.CarriesOut m := fun h => not_isCanceled h.1 hid hmem
    simp only [hnot, false_and, or_false]
  | refused hid hwanted hother hshut => simp only [hshut, true_or]
  | carriedOut h =>
    by_cases hshutdown : Method.ofName m.method = .shutdown
    · rw [hshutdown, perform, reply_session]
      simp only [h, true_and, or_true]
    simp only [hshutdown, and_false, or_false]
    by_cases hcancel : Method.ofName m.method = .cancel
    · rw [hcancel, perform, (cancel_memory s m).2.1]
    · rw [show (s.perform m (Method.ofName m.method)).session.shuttingDown = s.shuttingDown from
        congrArg Prod.snd (perform_memory s m _ hcancel hshutdown)]

/-- Nothing but the wish to exit ends a session. -/
theorem exited_dispatch (s : Session) (m : Message) :
    (s.dispatch m).exited = true ↔ s.CarriesOut m ∧ Method.ofName m.method = .exit := by
  generalize ho : s.dispatch m = o
  cases ho ▸ s.dispatch_cases m with
  | canceled hid hmem =>
    exact ⟨nofun, fun h => (not_isCanceled h.1.1 hid hmem).elim⟩
  | refused hid hwanted hother hshut =>
    exact ⟨nofun, fun h => (not_carriesOut hid hother hshut h.1).elim⟩
  | carriedOut h =>
    by_cases hexit : Method.ofName m.method = .exit
    · rw [hexit]
      exact ⟨fun _ => ⟨h, rfl⟩, fun _ => rfl⟩
    simp only [hexit, and_false, iff_false, Bool.not_eq_true]
    by_cases hcancel : Method.ofName m.method = .cancel
    · rw [hcancel]
      exact (cancel_memory s m).1
    by_cases hshutdown : Method.ofName m.method = .shutdown
    · rw [hshutdown]
      exact (reply_goesOn (s := { s with shuttingDown := true }) rfl ..).2
    · exact (perform_goesOn s m _ hcancel hshutdown hexit).2

end Session

end ThriftLayout
