import ThriftLayout.Proofs.Text.Runes
import ThriftLayout.Text.Width

/-!
# Widths of printable texts

A text of printable ASCII is as wide as it is long: no two of its bytes form one character, and
each takes one column. So the widths of its parts add up.

Results:

* `Width.ofText_printable`: the width of a printable text is its length.
* `Width.ofText_append`: the width of two printable texts, one after the other.
* `Width.ofText_spaces`: spaces are as wide as they are many.
-/
namespace ThriftLayout

/-- A byte that a terminal draws in one column. -/
def Ascii.isPrintable (b : UInt8) : Bool := 0x20 ≤ b && b ≤ 0x7E

theorem Ascii.lt_of_isPrintable {b : UInt8} (h : isPrintable b = true) : b < 0x80 :=
  Utf8.forall_byte (p := fun b => isPrintable b = true → b < 0x80) (by decide +kernel) b h

def IsPrintable (s : Bytes) : Prop := ∀ b ∈ s, Ascii.isPrintable b = true

instance (s : Bytes) : Decidable (IsPrintable s) :=
  List.decidableBAll (fun b => Ascii.isPrintable b = true) s

namespace IsPrintable

@[simp]
theorem nil : IsPrintable [] := nofun

@[simp]
theorem cons {b : UInt8} {s : Bytes} :
    IsPrintable (b :: s) ↔ Ascii.isPrintable b = true ∧ IsPrintable s :=
  List.forall_mem_cons

@[simp]
theorem append {s t : Bytes} : IsPrintable (s ++ t) ↔ IsPrintable s ∧ IsPrintable t :=
  List.forall_mem_append

theorem spaces (n : Nat) : IsPrintable (Bytes.spaces n) := by
  intro b hb
  have hspace : b = Ascii.space := List.eq_of_mem_replicate hb
  rw [hspace]
  decide

end IsPrintable

/-! ## One character for each byte -/

/-- A printable byte is a piece of its own. -/
theorem Cluster.Piece.front?_printable {b : UInt8} (h : Ascii.isPrintable b = true)
    (rest : Bytes) : Piece.front? b rest = some ⟨[b], .other⟩ := by
  have hone : announced b = 1 ∧ BreakClass.of b.toNat = .other ∧
      (Char.ofNat b.toNat).toNat = b.toNat :=
    Utf8.forall_byte (p := fun b => Ascii.isPrintable b = true → announced b = 1 ∧
      BreakClass.of b.toNat = .other ∧ (Char.ofNat b.toNat).toNat = b.toNat)
      (by decide +kernel) b h
  obtain ⟨hlength, hkind, hcode⟩ := hone
  have hchar : Utf8.front? b [] = some (Char.ofNat b.toNat, 0) := by
    unfold Utf8.front?
    rw [if_pos (Ascii.lt_of_isPrintable h)]
  unfold Piece.front?
  simp [hlength, hchar, hcode, hkind]

theorem Cluster.pieces_printable {s : Bytes} (h : IsPrintable s) :
    pieces s = (s.map fun b => ⟨[b], .other⟩, []) := by
  induction s with
  | nil => unfold pieces; rfl
  | cons b s ih =>
    obtain ⟨hb, hs⟩ := IsPrintable.cons.mp h
    unfold pieces
    rw [Piece.front?_printable hb]
    simp [ih hs]

/-- Printable bytes after a printable byte each begin a character. -/
theorem Cluster.group_printable (s : Bytes) :
    group [] (.start .other) (s.map fun b => ⟨[b], .other⟩) = ([], s.map fun b => [b]) := by
  have hapart : (Tail.start .other).joins .other = false := rfl
  induction s with
  | nil => rfl
  | cons b s ih => simp [group, hapart, ih]

theorem Cluster.clusters_printable {s : Bytes} (h : IsPrintable s) :
    clusters s = s.map fun b => [b] := by
  unfold clusters
  rw [pieces_printable h]
  cases s with
  | nil => rfl
  | cons b s => simp [group_printable]

namespace Width

theorem ofCluster_printable {b : UInt8} (h : Ascii.isPrintable b = true) : ofCluster [b] = 1 := by
  have hwidth : ofCode b.toNat = 1 ∧ (Char.ofNat b.toNat).toNat = b.toNat :=
    Utf8.forall_byte (p := fun b => Ascii.isPrintable b = true → ofCode b.toNat = 1 ∧
      (Char.ofNat b.toNat).toNat = b.toNat) (by decide +kernel) b h
  have hrunes := Utf8.runes_cons_ascii (Ascii.lt_of_isPrintable h) []
  rw [Utf8.runes_nil] at hrunes
  simp [ofCluster, hrunes, Utf8.Rune.code, hwidth]

/-- A printable text is as wide as it is long. -/
theorem ofText_printable {s : Bytes} (h : IsPrintable s) : ofText s = s.length := by
  unfold ofText
  rw [Cluster.clusters_printable h, List.map_map]
  induction s with
  | nil => rfl
  | cons b s ih =>
    obtain ⟨hb, hs⟩ := IsPrintable.cons.mp h
    have hrest := ih hs
    simp only [List.map_cons, List.foldr_cons, Function.comp_apply, hrest, List.length_cons,
      ofCluster_printable hb]
    omega

theorem ofText_append {s t : Bytes} (hs : IsPrintable s) (ht : IsPrintable t) :
    ofText (s ++ t) = ofText s + ofText t := by
  rw [ofText_printable hs, ofText_printable ht, ofText_printable (IsPrintable.append.mpr ⟨hs, ht⟩),
    List.length_append]

@[simp]
theorem ofText_spaces (n : Nat) : ofText (Bytes.spaces n) = n := by
  rw [ofText_printable (IsPrintable.spaces n)]
  exact List.length_replicate

@[simp]
theorem ofText_nil : ofText [] = 0 := ofText_spaces 0

end Width

end ThriftLayout
