import Mathlib.Data.List.Induction
import ThriftLayout.Files.Tree
import ThriftLayout.Proofs.Lookup
import ThriftLayout.Proofs.Text.Cut

/-!
# Where paths lead and what writing a file changes

A path means the walk along its elements, and its shortest form is the path of the same walk. So it
makes no difference to a walk, wherever it starts, whether a path is brought into that form before.

A file that is written holds what was written, under every path that names the same place. All other
files are as they were, and so is what reading another path comes to, faults included: the file was
there before, so it stands in the way of no path that it did not stand in the way of.

Results:

* `Path.elements_clean`: the elements of the shortest form are those that are left of the walk.
* `Path.absolute_clean`: the shortest form of a path names the same place.
* `FileTree.content?_write`: what files hold after a write.
* `FileTree.read_write`: what is read at another place after a file was replaced.
-/
namespace ThriftLayout

namespace Path

open Bytes (splitOn)

/-! ## Elements -/

/-- Whether a text can be an element of a path. -/
def IsElement (e : Bytes) : Prop := e ≠ [] ∧ e ≠ utf8 "." ∧ Ascii.slash ∉ e

theorem not_mem_of_mem_splitOn {sep : UInt8} {s p : Bytes} (h : p ∈ splitOn sep s) : sep ∉ p := by
  induction s generalizing p with
  | nil =>
    rw [List.mem_singleton.mp h]
    exact List.not_mem_nil
  | cons b s ih =>
    unfold Bytes.splitOn at h
    split at h
    · rcases List.mem_cons.mp h with rfl | hp
      · exact List.not_mem_nil
      · exact ih hp
    · rename_i hb
      have hne : sep ≠ b := fun heq => hb (beq_iff_eq.mpr heq.symm)
      cases hpieces : splitOn sep s with
      | nil => exact (Bytes.splitOn_ne_nil sep s hpieces).elim
      | cons q qs =>
        rw [hpieces] at h ih
        rcases List.mem_cons.mp h with rfl | hp
        · exact List.not_mem_cons_of_ne_of_not_mem hne (ih (List.mem_cons_self ..))
        · exact ih (List.mem_cons_of_mem q hp)

theorem isElement_of_mem {p e : Bytes} (h : e ∈ elements p) : IsElement e := by
  obtain ⟨hmem, hkept⟩ := List.mem_filter.mp h
  simp only [Bool.and_eq_true, Bool.not_eq_true', List.isEmpty_eq_false_iff, bne_iff_ne] at hkept
  exact ⟨hkept.1, hkept.2, not_mem_of_mem_splitOn hmem⟩

theorem elements_nil : elements [] = [] := rfl

theorem elements_append_slash (a b : Bytes) :
    elements (a ++ Ascii.slash :: b) = elements a ++ elements b := by
  obtain ⟨ls, l, m, ms, ha, hb, hcut⟩ := Bytes.splitOn_append Ascii.slash a (Ascii.slash :: b)
  rw [Bytes.splitOn_cons_self] at hb
  obtain ⟨rfl, rfl⟩ := List.cons.inj hb
  unfold elements
  rw [hcut, ha, List.append_nil, ← List.filter_append, List.append_assoc]
  rfl

section OfElements

variable {es : List Bytes}

theorem elements_join (h : ∀ e ∈ es, IsElement e) :
    elements (Bytes.join [Ascii.slash] es) = es := by
  cases es with
  | nil => rfl
  | cons e es =>
    unfold elements
    rw [Bytes.splitOn_join_of_not_mem (List.cons_ne_nil e es) fun e he => (h e he).2.2]
    refine List.filter_eq_self.mpr fun e he => ?_
    obtain ⟨hne, hdot, -⟩ := h e he
    simp only [Bool.and_eq_true, Bool.not_eq_true', List.isEmpty_eq_false_iff, bne_iff_ne]
    exact ⟨hne, hdot⟩

theorem elements_ofElements (rooted : Bool) (h : ∀ e ∈ es, IsElement e) :
    elements (ofElements rooted es) = es := by
  cases rooted with
  | true =>
    show elements ([] ++ Ascii.slash :: Bytes.join [Ascii.slash] es) = es
    rw [elements_append_slash, elements_nil, List.nil_append, elements_join h]
  | false =>
    cases es with
    | nil => decide
    | cons e es => exact elements_join h

theorem isAbsolute_ofElements (rooted : Bool) (h : ∀ e ∈ es, IsElement e) :
    isAbsolute (ofElements rooted es) = rooted := by
  cases rooted with
  | true => rfl
  | false =>
    cases es with
    | nil => decide
    | cons e es =>
      obtain ⟨hne, -, hslash⟩ := h e (List.mem_cons_self ..)
      obtain ⟨b, e, rfl⟩ := List.exists_cons_of_ne_nil hne
      have hb : b ≠ Ascii.slash := fun hb => hslash (hb ▸ List.mem_cons_self ..)
      have hhead : (ofElements false ((b :: e) :: es)).head? = some b := by
        cases es <;> rfl
      rw [isAbsolute, hhead]
      exact beq_eq_false_iff_ne.mpr fun heq => hb (Option.some.inj heq)

end OfElements

/-! ## Walks -/

/-- The place that a walk along elements leads to, the last element first. -/
def walk (rooted : Bool) (place es : List Bytes) : List Bytes := es.foldl (enter rooted) place

variable {rooted r : Bool} {place es : List Bytes}

theorem mem_walk {e : Bytes} (h : e ∈ walk rooted place es) : e ∈ place ∨ e ∈ es := by
  induction es generalizing place with
  | nil => exact .inl h
  | cons d es ih =>
    rcases ih h with hmem | hmem
    · have hplace : e = d ∨ e ∈ place := by
        unfold enter at hmem
        split at hmem
        · split at hmem
          · split at hmem
            · cases hmem
            · exact .inl (List.mem_singleton.mp hmem)
          · split at hmem
            · exact List.mem_cons.mp hmem
            · exact .inr (List.mem_cons_of_mem _ hmem)
        · exact List.mem_cons.mp hmem
      rcases hplace with rfl | hmem
      · exact .inr (List.mem_cons_self ..)
      · exact .inl hmem
    · exact .inr (List.mem_cons_of_mem d hmem)

theorem walk_append (es es' : List Bytes) :
    walk rooted place (es ++ es') = walk rooted (walk rooted place es) es' :=
  List.foldl_append

/-- One step more, taken from a place that was walked to. -/
theorem walk_enter (h : rooted = false ∨ (r = true ∧ place = [])) (done : List Bytes) (e : Bytes) :
    walk r place (enter rooted done e).reverse = enter r (walk r place done.reverse) e := by
  have hpush : walk r place (e :: done).reverse = enter r (walk r place done.reverse) e := by
    rw [List.reverse_cons, walk_append]
    rfl
  by_cases hup : e = utf8 ".."
  · subst hup
    cases done with
    | nil =>
      rcases h with rfl | ⟨rfl, rfl⟩
      · exact hpush
      · cases rooted <;> rfl
    | cons last done =>
      by_cases hlast : last = utf8 ".."
      · rw [show enter rooted (last :: done) (utf8 "..") = utf8 ".." :: last :: done by
          simp [enter, hlast]]
        exact hpush
      · -- a step down that is taken back
        have hback (rooted : Bool) (place : List Bytes) :
            enter rooted (last :: place) (utf8 "..") = place := by simp [enter, hlast]
        have hdown : walk r place (last :: done).reverse = last :: walk r place done.reverse := by
          rw [List.reverse_cons, walk_append]
          simp [walk, enter, hlast]
        rw [hback, hdown, hback]
  · rw [show enter rooted done e = e :: done by simp [enter, hup]]
    exact hpush

/-- Walking along what is left of a walk leads to the same place. -/
theorem walk_walk (h : rooted = false ∨ (r = true ∧ place = [])) (es : List Bytes) :
    walk r place (walk rooted [] es).reverse = walk r place es := by
  -- from the back, since the place is what the next element is entered from
  induction es using List.reverseRecOn with
  | nil => rfl
  | append_singleton es e ih =>
    rw [walk_append, walk_append, ← ih]
    exact walk_enter h (walk rooted [] es) e

/-! ## Shortest forms -/

theorem isElement_left (p : Bytes) :
    ∀ e ∈ (walk rooted [] (elements p)).reverse, IsElement e := fun e he => by
  rcases mem_walk (List.mem_reverse.mp he) with hnil | he
  · exact nomatch hnil
  · exact isElement_of_mem he

theorem clean_eq (p : Bytes) :
    clean p = ofElements (isAbsolute p) (walk (isAbsolute p) [] (elements p)).reverse := rfl

/-- What is left of a path are the elements of its shortest form. -/
theorem elements_clean (p : Bytes) :
    elements (clean p) = (walk (isAbsolute p) [] (elements p)).reverse :=
  elements_ofElements _ (isElement_left p)

theorem isAbsolute_clean (p : Bytes) : isAbsolute (clean p) = isAbsolute p :=
  isAbsolute_ofElements _ (isElement_left p)

theorem join_eq (base : Bytes) {p : Bytes} (h : isAbsolute p = false) :
    Path.join base p = ofElements (isAbsolute base)
      (walk (isAbsolute base) [] (elements base ++ elements p)).reverse := by
  unfold Path.join
  cases base with
  | nil =>
    rw [List.isEmpty_nil, if_pos rfl, clean_eq, h]
    rfl
  | cons b base =>
    cases p with
    | nil =>
      rw [elements_nil, List.append_nil]
      rfl
    | cons c p =>
      show clean (b :: base ++ Ascii.slash :: c :: p) = _
      rw [clean_eq, elements_append_slash]
      rfl

/-- The shortest form of a path names the same place. -/
theorem absolute_clean (workDir p : Bytes) : absolute workDir (clean p) = absolute workDir p := by
  unfold absolute
  rw [isAbsolute_clean]
  cases habs : isAbsolute p with
  | true =>
    rw [if_pos rfl, if_pos rfl, clean_eq (clean p), isAbsolute_clean, elements_clean, habs,
      walk_walk (.inr ⟨rfl, rfl⟩), clean_eq p, habs]
  | false =>
    rw [if_neg Bool.false_ne_true, if_neg Bool.false_ne_true, join_eq workDir habs,
      join_eq workDir ((isAbsolute_clean p).trans habs), elements_clean, habs]
    simp only [walk_append]
    rw [walk_walk (.inl rfl)]

end Path

/-! ## Files -/

namespace FileTree

def place (t : FileTree) (p : Bytes) : Bytes := Path.absolute t.workDir p

/-- What the file at the place of a path holds. -/
def content? (t : FileTree) (p : Bytes) : Option Bytes := (t.file? p).map (·.content)

variable {t : FileTree} {p q content : Bytes} {mode : Nat}

theorem file?_write_of_ne (h : t.place q ≠ t.place p) :
    (t.write p content mode).file? q = t.file? q :=
  lookup_replace_of_ne h _ t.files

theorem content?_write : (t.write p content mode).content? q =
    if t.place q = t.place p then some content else t.content? q := by
  split
  · rename_i h
    show (List.lookup (t.place q) ((t.place p, _) :: _)).map File.content = some content
    rw [h, List.lookup_cons_self]
    rfl
  · rename_i h
    exact congrArg (Option.map File.content) (file?_write_of_ne h)

/-- A replaced file is a file, as it was before. -/
theorem lookup_isSome_write (h : (t.file? p).isSome) (d : Bytes) :
    ((t.write p content mode).files.lookup d).isSome = (t.files.lookup d).isSome := by
  by_cases hd : d = t.place p
  · subst hd
    show (List.lookup (t.place p) ((t.place p, _) :: _)).isSome = _
    rw [List.lookup_cons_self]
    exact h.symm
  · exact congrArg Option.isSome (lookup_replace_of_ne hd _ t.files)

theorem obstacle_write (h : (t.file? p).isSome) :
    (t.write p content mode).obstacle q = t.obstacle q := by
  unfold obstacle
  simp only [lookup_isSome_write h]
  rfl

/-- Reading goes by the place of a path, and needs a file there that may be read. -/
theorem file?_of_read (h : t.read p = .ok content) :
    ∃ f, t.file? p = some f ∧ f.isReadable = true ∧ f.content = content := by
  unfold read at h
  simp only at h
  split at h
  · exact nomatch h
  split at h
  · exact nomatch h
  split at h
  · rename_i f hf
    have hfile : t.file? p = some f := by
      rw [← hf, file?, file?, Path.absolute_clean]
    split at h
    · rename_i hreadable
      exact ⟨f, hfile, hreadable, Except.ok.inj h⟩
    · exact nomatch h
  · exact nomatch h

theorem content?_of_read (h : t.read p = .ok content) : t.content? p = some content := by
  obtain ⟨f, hfile, -, hcontent⟩ := file?_of_read h
  rw [content?, hfile, Option.map_some, hcontent]

/-- What is read at another place is the same after a file was replaced. -/
theorem read_write (h : (t.file? p).isSome) (hne : t.place q ≠ t.place p) :
    (t.write p content mode).read q = t.read q := by
  have hplace : t.place (Path.clean q) ≠ t.place p := by
    unfold place
    rw [Path.absolute_clean]
    exact hne
  unfold read
  simp only [file?_write_of_ne hplace, obstacle_write h]
  rfl

end FileTree

end ThriftLayout
