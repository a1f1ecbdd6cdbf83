import Mathlib
import ThriftLayout.Proofs.Editor.Dispatch

/-!
# Who is answered

A session answers messages one at a time, so what it owes a message is settled before it looks at
the next one. Which requests are canceled and whether there was a shutdown is read off the messages
that were carried out before.

Results:

* `Session.mem_canceled_iff`, `Session.shuttingDown_iff`: what a session remembers of a run.
* `messages_answered_once`: who is answered, with what, and which documents are published.
-/
namespace ThriftLayout

namespace Session

/-! ## Runs -/

section Runs

/-- The session after messages, unless one of them made it exit. -/
def after? (s : Session) : List Message → Option Session
  | [] => some s
  | m :: ms => if (s.dispatch m).exited then none else (s.dispatch m).session.after? ms

/-- All that is sent for messages, up to the first exit. -/
def transcript (s : Session) : List Message → List Outgoing
  | [] => []
  | m :: ms =>
    (s.dispatch m).sent ++
      if (s.dispatch m).exited then [] else (s.dispatch m).session.transcript ms

def CarriesOutAfter (s : Session) (before : List Message) (m : Message) : Prop :=
  ∃ now, s.after? before = some now ∧ now.CarriesOut m

/-- Whether a request is canceled after messages: it was from the start, or one of them canceled it,
and it has not come since. -/
def Outstanding (s : Session) (ms : List Message) (id : Bytes) : Prop :=
  (id ∈ s.canceled ∧ ∀ m ∈ ms, m.id ≠ some id) ∨
    ∃ before c since, ms = before ++ c :: since ∧ s.CarriesOutAfter before c ∧ Cancels c id ∧
      ∀ m ∈ since, m.id ≠ some id

/-- Whether a session is shutting down after messages: it was from the start, or one of them said
so. -/
def ShutDown (s : Session) (ms : List Message) : Prop :=
  s.shuttingDown = true ∨
    ∃ before c since, ms = before ++ c :: since ∧ s.CarriesOutAfter before c ∧
      Method.ofName c.method = .shutdown

variable {s now : Session} {before ms : List Message} {m : Message}

theorem after?_append (s : Session) (before ms : List Message) :
    s.after? (before ++ ms) = (s.after? before).bind (·.after? ms) := by
  induction before generalizing s with
  | nil => rfl
  | cons b before ih =>
    simp only [List.cons_append, after?]
    split
    · rfl
    · exact ih _

theorem transcript_append (h : s.after? before = some now) (ms : List Message) :
    s.transcript (before ++ ms) = s.transcript before ++ now.transcript ms := by
  induction before generalizing s with
  | nil =>
    obtain rfl := Option.some.inj h
    rfl
  | cons b before ih =>
    simp only [after?] at h
    split at h
    · exact nomatch h
    · rename_i hexited
      simp only [List.cons_append, transcript, hexited, Bool.false_eq_true, if_false]
      rw [ih h, List.append_assoc]

/-- A run up to its last message, and that message. -/
theorem of_after?_concat {next : Session} (h : s.after? (ms ++ [m]) = some next) :
    ∃ now, s.after? ms = some now ∧ next = (now.dispatch m).session := by
  rw [after?_append] at h
  obtain ⟨now, hnow, hnext⟩ := Option.bind_eq_some_iff.mp h
  simp only [after?] at hnext
  split at hnext
  · exact nomatch hnext
  · exact ⟨now, hnow, (Option.some.inj hnext).symm⟩

/-- The last message of a run is the one with nothing since, and all others come before it. -/
theorem exists_split_concat {P : List Message → Message → List Message → Prop} :
    (∃ before c since, ms ++ [m] = before ++ c :: since ∧ P before c since) ↔
      P ms m [] ∨ ∃ before c since, ms = before ++ c :: since ∧ P before c (since ++ [m]) := by
  constructor
  · rintro ⟨before, c, since, hsplit, h⟩
    rcases List.eq_nil_or_concat since with rfl | ⟨since, x, rfl⟩
    · obtain ⟨rfl, hc⟩ := List.append_inj' hsplit rfl
      obtain rfl := List.head_eq_of_cons_eq hc
      exact .inl h
    · rw [List.concat_eq_append, ← List.cons_append, ← List.append_assoc] at hsplit
      obtain ⟨rfl, hx⟩ := List.append_inj' hsplit rfl
      obtain rfl := List.head_eq_of_cons_eq hx
      exact .inr ⟨before, c, since, rfl, List.concat_eq_append ▸ h⟩
  · rintro (h | ⟨before, c, since, rfl, h⟩)
    · exact ⟨ms, m, [], rfl, h⟩
    · exact ⟨before, c, since ++ [m], by rw [List.append_assoc, List.cons_append], h⟩

theorem outstanding_concat (h : s.after? ms = some now) (id : Bytes) :
    s.Outstanding (ms ++ [m]) id ↔
      (now.CarriesOut m ∧ Cancels m id) ∨ (s.Outstanding ms id ∧ m.id ≠ some id) := by
  have hcarried : s.CarriesOutAfter ms m ↔ now.CarriesOut m :=
    ⟨fun ⟨now', hnow', hm⟩ => Option.some.inj (h.symm.trans hnow') ▸ hm, fun hm => ⟨now, h, hm⟩⟩
  unfold Outstanding
  rw [exists_split_concat, hcarried]
  simp only [List.mem_append, List.mem_singleton, or_imp, forall_and, forall_eq]
  grind

theorem shutDown_concat (h : s.after? ms = some now) :
    s.ShutDown (ms ++ [m]) ↔
      s.ShutDown ms ∨ (now.CarriesOut m ∧ Method.ofName m.method = .shutdown) := by
  have hcarried : s.CarriesOutAfter ms m ↔ now.CarriesOut m :=
    ⟨fun ⟨now', hnow', hm⟩ => Option.some.inj (h.symm.trans hnow') ▸ hm, fun hm => ⟨now, h, hm⟩⟩
  unfold ShutDown
  rw [exists_split_concat, hcarried, or_comm (a := _ ∧ _), or_assoc]

/-- What is remembered of canceled requests is what a run says of them. -/
theorem mem_canceled_iff (h : s.after? ms = some now) (id : Bytes) :
    id ∈ now.canceled ↔ s.Outstanding ms id := by
  -- on the last message: it cancels the request, or is the request, or leaves both sides alone
  induction ms using List.reverseRecOn generalizing now with
  | nil =>
    obtain rfl := Option.some.inj h
    simp [Outstanding]
  | append_singleton ms m ih =>
    obtain ⟨mid, hmid, rfl⟩ := of_after?_concat h
    rw [mem_canceled_dispatch, outstanding_concat hmid, ih hmid]

theorem shuttingDown_iff (h : s.after? ms = some now) :
    now.shuttingDown = true ↔ s.ShutDown ms := by
  induction ms using List.reverseRecOn generalizing now with
  | nil =>
    obtain rfl := Option.some.inj h
    simp [ShutDown]
  | append_singleton ms m ih =>
    obtain ⟨mid, hmid, rfl⟩ := of_after?_concat h
    rw [shuttingDown_dispatch, shutDown_concat hmid, ih hmid]

end Runs

/-! ## Who is answered -/

section Owed

/-- What a session that started as `s` and handled the messages `before` owes the next message. -/
structure Owed (s : Session) (before : List Message) (now : Session) (m : Message)
    (sent : List Outgoing) : Prop where
  /-- A request is answered once and with its own identifier. -/
  answered : ∀ id, m.id = some id → (Method.ofName m.method).answered = true →
    ∃ a, sent = [.response (some id) a]
  /-- A notification is not answered. -/
  unanswered : m.id = none → ∀ id a, .response id a ∉ sent
  /-- A document is published once when it was opened, changed or closed. -/
  published : now.CarriesOut m → ∀ store uri, now.synced? m = some (store, uri) →
    ∃ notices, sent = [.published uri ((store.get? uri).map (·.version)) notices]
  unpublished : (now.CarriesOut m → now.synced? m = none) →
    ∀ uri version notices, .published uri version notices ∉ sent
  /-- A request is told that it was canceled when it was, -/
  canceled : ∀ id, m.id = some id →
    ((∃ why, .response (some id) (.failed .requestCanceled why) ∈ sent) ↔ s.Outstanding before id)
  /-- and then not again. -/
  usedUp : ∀ id, m.id = some id → s.Outstanding before id → ¬ s.Outstanding (before ++ [m]) id
  /-- After a shutdown all other requests are refused. -/
  refused : s.ShutDown before → ∀ id, m.id = some id → Method.ofName m.method ≠ .shutdown →
    ¬ s.Outstanding before id → ∃ why, sent = [.response (some id) (.failed .invalidRequest why)]

variable {s now : Session} {before : List Message} {m : Message} {sent : List Outgoing}

/-- A request that is carried out is answered if its method is one that is. -/
theorem Sends.answered (h : Sends now m sent) {id : Bytes} (hid : m.id = some id)
    (hanswered : (Method.ofName m.method).answered = true) :
    ∃ a, sent = [.response (some id) a] := by
  cases h with
  | nothing hquiet => exact absurd (hquiet.symm.trans hanswered) Bool.false_ne_true
  | @answer a => exact ⟨a, by unfold answerTo; rw [hid]; rfl⟩
  | published hsynced =>
    unfold synced? at hsynced
    split at hsynced <;> rename_i hmethod <;> simp_all [Method.answered]

theorem mem_answerTo {f : Outgoing} {a : Answer} (h : f ∈ answerTo m a) :
    ∃ id, m.id = some id ∧ f = .response (some id) a := by
  obtain ⟨id, hid, rfl⟩ := Option.map_eq_some_iff.mp (Option.mem_toList.mp h)
  exact ⟨id, hid, rfl⟩

theorem Sends.of_response (h : Sends now m sent) {id : Option Bytes} {a : Answer}
    (hmem : .response id a ∈ sent) :
    (∃ id', m.id = some id' ∧ id = some id') ∧ failure? a ≠ some .requestCanceled := by
  cases h with
  | nothing => exact nomatch hmem
  | answer hkind =>
    obtain ⟨id', hid', hf⟩ := mem_answerTo hmem
    obtain ⟨rfl, rfl⟩ := Outgoing.response.inj hf
    exact ⟨⟨id', hid', rfl⟩, hkind⟩
  | published => exact nomatch List.mem_singleton.mp hmem

theorem Sends.of_published (h : Sends now m sent) {uri : Bytes} {version : Option Int}
    {notices : List Notice} (hmem : .published uri version notices ∈ sent) :
    now.synced? m ≠ none := by
  cases h with
  | nothing => exact nomatch hmem
  | answer =>
    obtain ⟨_, _, hf⟩ := mem_answerTo hmem
    exact nomatch hf
  | published hsynced => exact fun hnone => nomatch hnone.symm.trans hsynced

theorem Sends.synced (h : Sends now m sent) {store : Store} {uri : Bytes}
    (hsynced : now.synced? m = some (store, uri)) :
    ∃ notices, sent = [.published uri ((store.get? uri).map (·.version)) notices] := by
  cases h with
  | nothing _ hnone => exact nomatch hnone.symm.trans hsynced
  | answer _ hnone => exact nomatch hnone.symm.trans hsynced
  | published hsynced' notices =>
    obtain ⟨rfl, rfl⟩ := Prod.mk.inj (Option.some.inj (hsynced'.symm.trans hsynced))
    exact ⟨notices, rfl⟩

/-- A request uses up its cancellation, since it is not carried out. -/
theorem not_outstanding_concat (h : s.after? before = some now) {id : Bytes} (hid : m.id = some id)
    (hout : s.Outstanding before id) : ¬ s.Outstanding (before ++ [m]) id := by
  rw [outstanding_concat h]
  rintro (⟨hcarried, -⟩ | ⟨-, hne⟩)
  · exact not_isCanceled hcarried.1 hid ((mem_canceled_iff h id).mpr hout)
  · exact hne hid

/-- A request that is not carried out gets one answer, which depends on whether it was canceled. -/
theorem owed_refusal (h : s.after? before = some now) {id : Bytes} (hid : m.id = some id)
    (hnot : ¬ now.CarriesOut m) {kind : ErrorKind} (why : Bytes)
    (hcanceled : kind = .requestCanceled ↔ s.Outstanding before id)
    (hrefused : kind = .requestCanceled ∨ kind = .invalidRequest) :
    s.Owed before now m [.response (some id) (.failed kind why)] where
  answered id' hid' _ := by
    obtain rfl := Option.some.inj (hid.symm.trans hid')
    exact ⟨_, rfl⟩
  unanswered hnone := nomatch hid.symm.trans hnone
  published hcarried := (hnot hcarried).elim
  unpublished _ uri version notices hmem := nomatch List.mem_singleton.mp hmem
  canceled id' hid' := by
    obtain rfl := Option.some.inj (hid.symm.trans hid')
    rw [← hcanceled]
    refine ⟨fun ⟨why', hmem⟩ => ?_, fun hkind => ⟨why, hkind ▸ List.mem_singleton.mpr rfl⟩⟩
    exact (Answer.failed.inj (Outgoing.response.inj (List.mem_singleton.mp hmem)).2).1.symm
  usedUp id' := not_outstanding_concat h
  refused _ id' hid' _ hwanted := by
    obtain rfl := Option.some.inj (hid.symm.trans hid')
    rcases hrefused with hkind | rfl
    · exact (hwanted (hcanceled.mp hkind)).elim
    · exact ⟨why, rfl⟩

theorem owed_carriedOut (h : s.after? before = some now) (hcarried : now.CarriesOut m)
    (hsends : Sends now m sent) : s.Owed before now m sent where
  answered id hid := hsends.answered hid
  unanswered hnone id a hmem := by
    obtain ⟨⟨id', hid', -⟩, -⟩ := hsends.of_response hmem
    exact nomatch hnone.symm.trans hid'
  published _ store uri := hsends.synced
  unpublished hnone uri version notices hmem := hsends.of_published hmem (hnone hcarried)
  canceled id hid := by
    refine ⟨fun ⟨why, hmem⟩ => ((hsends.of_response hmem).2 rfl).elim, fun hout => ?_⟩
    exact (not_isCanceled hcarried.1 hid ((mem_canceled_iff h id).mpr hout)).elim
  usedUp id := not_outstanding_concat h
  refused hshut id hid hother _ := by
    rcases hcarried.2 with hnone | hshutdown | hopen
    · exact nomatch hid.symm.trans hnone
    · exact (hother hshutdown).elim
    · exact absurd (hopen.symm.trans ((shuttingDown_iff h).mpr hshut)) Bool.false_ne_true

theorem owed (h : s.after? before = some now) (m : Message) :
    s.Owed before now m (now.dispatch m).sent := by
  generalize ho : now.dispatch m = o
  cases ho ▸ now.dispatch_cases m with
  | @canceled id hid hmem =>
    have hnot : ¬ now.CarriesOut m := fun hcarried => not_isCanceled hcarried.1 hid hmem
    have hout := (mem_canceled_iff h id).mp hmem
    exact owed_refusal h hid hnot _ ⟨fun _ => hout, fun _ => rfl⟩ (.inl rfl)
  | @refused id hid hwanted hother hshut =>
    have hnot : ¬ now.CarriesOut m := not_carriesOut hid hother hshut
    have hout : ¬ s.Outstanding before id := fun hout =>
      hwanted ((mem_canceled_iff h id).mpr hout)
    exact owed_refusal h hid hnot _ ⟨nofun, fun h => (hout h).elim⟩ (.inr rfl)
  | carriedOut hcarried => exact owed_carriedOut h hcarried (now.perform_sends m)

end Owed

end Session

/-- In every run each message gets what it is owed, between what was sent for the messages before it
and what is sent for the later ones, which is nothing once the session exited. -/
theorem messages_answered_once (s : Session) {before : List Message} {now : Session}
    (h : s.after? before = some now) (m : Message) (later : List Message) :
    s.transcript (before ++ m :: later) = s.transcript before ++ ((now.dispatch m).sent ++
      if (now.dispatch m).exited then [] else (now.dispatch m).session.transcript later) ∧
    s.Owed before now m (now.dispatch m).sent :=
  ⟨Session.transcript_append h (m :: later), Session.owed h m⟩

namespace Message

/-- A request without parameters. -/
def request (id method : String) : Message := ⟨utf8 "2.0", some (utf8 id), utf8 method, none⟩

/-- The notification that a request is canceled. -/
def cancelation (id : String) : Message :=
  ⟨utf8 "2.0", none, utf8 "$/cancelRequest", some (utf8 "\x7b\"id\":" ++ utf8 id ++ utf8 "\x7d")⟩

end Message

open Message in
/-- A request that was canceled before it came is told so. -/
theorem messages_answered_once_canceled :
    let s := Session.start .builtin .standard
    ∃ now, s.after? [cancelation "1"] = some now ∧ ∃ why,
      .response (some (utf8 "1")) (.failed .requestCanceled why) ∈
        (now.dispatch (request "1" "textDocument/formatting")).sent := by
  intro s
  have hmethod : Session.Method.ofName (cancelation "1").method = .cancel := by decide +kernel
  have hexited : (s.dispatch (cancelation "1")).exited = false := by
    rw [← Bool.not_eq_true, Session.exited_dispatch, hmethod]
    exact fun h => nomatch h.2
  have h : s.after? [cancelation "1"] = some (s.dispatch (cancelation "1")).session := by
    rw [Session.after?, hexited]
    rfl
  have hout : s.Outstanding [cancelation "1"] (utf8 "1") :=
    .inr ⟨[], cancelation "1", [], rfl, ⟨s, rfl, rfl, .inl rfl⟩, ⟨hmethod, by cbv⟩, nofun⟩
  exact ⟨_, h, ((messages_answered_once s h _ []).2.canceled _ rfl).mpr hout⟩

end ThriftLayout
