import ThriftLayout.Editor.Reply

/-!
# Faults that nobody asked for

A request can be canceled before it is carried out, but what carries it out cannot: where nothing is
said to be canceled, no computation reports that it was.

Results:

* `Formatter.formatSource_faults`, `Formatter.formatRange_faults`: formatting.
* `Store.change_faults`, `Store.find_faults`: the open documents.
-/
namespace ThriftLayout

/-! ## Faults of one kind -/

/-- Whether every fault of a computation has a property. -/
def FaultsAre {ε α : Type} (p : ε → Prop) (x : Except ε α) : Prop := ∀ e, x = .error e → p e

namespace FaultsAre

variable {ε ε' α β : Type} {p : ε → Prop} {x : Except ε α}

theorem ok (a : α) : FaultsAre p (.ok a) := nofun

theorem error {e : ε} (h : p e) : FaultsAre p (Except.error e : Except ε α) :=
  fun _ he => Except.error.inj he ▸ h

theorem bind {f : α → Except ε β} (hx : FaultsAre p x) (hf : ∀ a, FaultsAre p (f a)) :
    FaultsAre p (x >>= f) := by
  cases x with
  | error e => exact error (hx e rfl)
  | ok a => exact hf a

theorem mapError {q : ε' → Prop} {g : ε → ε'} (hx : FaultsAre p x) (h : ∀ e, p e → q (g e)) :
    FaultsAre q (x.mapError g) := by
  cases x with
  | error e => exact error (h e (hx e rfl))
  | ok a => exact ok a

theorem of_mapError {q : ε' → Prop} {g : ε → ε'} (h : ∀ e, q (g e)) :
    FaultsAre q (x.mapError g) :=
  mapError (p := fun _ => True) (fun _ _ => trivial) fun e _ => h e

end FaultsAre

/-! ## Nothing is canceled that was not said to be -/

namespace Formatter

variable {f : Formatter} {content : Bytes} {o : Options}

theorem prepare_faults : FaultsAre (· ≠ .canceled) (prepare o content) := by
  unfold prepare
  refine .bind (.of_mapError nofun) fun norm => ?_
  split
  · exact .error nofun
  · exact .ok norm

theorem document_faults : FaultsAre (· ≠ .canceled) (f.document content) := by
  unfold document
  split
  · exact .ok _
  · exact .ok _
  · exact .error nofun
  · exact .error nofun

theorem laidOut_faults (lines : Except Options.IndentFault (List Bytes)) :
    FaultsAre (· ≠ .canceled) (laidOut lines) := by
  cases lines with
  | error e => exact .error nofun
  | ok lines => exact .ok _

theorem formatContent_faults : FaultsAre (·.fault ≠ .canceled) (f.formatContent content o) := by
  unfold formatContent
  refine .bind (prepare_faults.mapError fun _ h => h) fun norm => ?_
  refine .bind (document_faults.mapError fun _ h => h) fun doc => ?_
  exact .bind ((laidOut_faults _).mapError fun _ h => h) fun out => .ok _

theorem formatLineRange_faults {r : LineRange} :
    FaultsAre (· ≠ .canceled) (f.formatLineRange content r o) := by
  unfold formatLineRange
  refine .bind prepare_faults fun norm => .bind (.of_mapError nofun) fun _ => ?_
  exact .bind document_faults fun doc => laidOut_faults _

theorem formatSource_faults : FaultsAre (·.fault ≠ .canceled) (f.formatSource false content o) := by
  unfold formatSource
  simp only [Bool.false_eq_true, if_false]
  split
  · exact .error nofun
  · split
    · rename_i e he
      exact .error (formatContent_faults e he)
    · exact .ok _

theorem formatRange_faults {r : LineRange} :
    FaultsAre (·.fault ≠ .canceled) (f.formatRange false content r o) := by
  unfold formatRange
  simp only [Bool.false_eq_true, if_false]
  split
  · exact .error nofun
  · refine .mapError (p := (· ≠ .canceled)) (.bind (.of_mapError nofun) fun _ => ?_) fun _ h => h
    exact .bind formatLineRange_faults fun out => .bind (.of_mapError nofun) fun span => .ok _

end Formatter

namespace ContentChange

theorem apply_faults (c : ContentChange) (src : Bytes) :
    FaultsAre (· ≠ .canceled) (c.apply src) := by
  unfold apply
  split
  · exact .ok _
  · refine .bind (.of_mapError nofun) fun start => .bind (.of_mapError nofun) fun stop => ?_
    split
    · exact .error nofun
    · exact .of_mapError nofun

theorem applyAll_faults (cs : List ContentChange) (src : Bytes) :
    FaultsAre (· ≠ .canceled) (applyAll cs src) := by
  induction cs generalizing src with
  | nil => exact .ok src
  | cons c cs ih => exact .bind (apply_faults c src) ih

end ContentChange

theorem Store.change_faults (s : Store) (uri : Bytes) (version : Int) (cs : List ContentChange) :
    FaultsAre (· ≠ .canceled) (s.change false uri version cs) := by
  unfold change
  split
  · exact .error nofun
  split
  · exact .error nofun
  split
  · rename_i e he
    exact .error (ContentChange.applyAll_faults _ _ e he)
  · exact .ok _

theorem Store.find_faults (s : Store) (uri : Bytes) (version : Option Int) :
    FaultsAre (· ≠ .canceled) (s.find uri version) := by
  unfold find
  split
  · exact .error nofun
  split
  · split
    · exact .ok _
    · exact .error nofun
  · exact .ok _

/-- A fault about a document is told as a cancellation only if it is one. -/
theorem RequestFault.kind_store {f : StoreFault} (h : f ≠ .canceled) :
    (store f).kind ≠ .requestCanceled := by
  cases f <;> first | exact absurd rfl h | exact nofun

theorem RequestFault.kind_format {f : FormatFault} (h : f ≠ .canceled) :
    (format f).kind ≠ .requestCanceled := by
  cases f <;> first | exact absurd rfl h | exact nofun

end ThriftLayout
