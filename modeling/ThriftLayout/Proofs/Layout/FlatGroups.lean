import ThriftLayout.Layout.Doc
import ThriftLayout.Proofs.Text.Cut

/-!
# Groups on one line

A group is written on one line when everything up to the next line break fits, later groups taken
flat. A later group on the line is decided again when it is reached, and what was looked at before
is looked at again: with less of it left and as much less room. So the answer stays the same, and a
line with a soft line or soft break on it that was not broken is never too wide.

`lay` writes a document line by line and keeps what stands on each line. Columns are counted in 64
bits, and the width of a line is what is left of the count.

Results:

* `join_lay`: the lines that are laid are those that are written.
* `Line.tracked_le_of_fits`: where what waits fits, the line up to there does.
* `lay_fits`: a line that keeps a soft line or soft break flat fits.
* `overlong_lines_broken`: on a line that is too wide, nothing is kept flat.
-/
namespace ThriftLayout.Doc

/-! ## Lines with what stands on them -/

/-- A part of a line. -/
inductive Item where
  | text (s : Bytes)
  /-- A soft line that is a space. -/
  | flatLine
  /-- A soft break that is nothing. -/
  | flatBreak
  deriving DecidableEq, Repr

namespace Item

def written : Item → Bytes
  | text s => s
  | flatLine => [Ascii.space]
  | flatBreak => []

/-- The columns that the part is taken to need. -/
def columns (width : Bytes → Nat) : Item → Nat
  | text s => width s
  | flatLine => 1
  | flatBreak => 0

/-- Whether the part is a place where the line could break. -/
def isFlat : Item → Bool
  | text _ => false
  | flatLine | flatBreak => true

end Item

/-- A line of the output: its level of indentation and its parts. -/
structure Line where
  level : Nat
  items : List Item := []
  deriving DecidableEq, Repr

namespace Line

/-- A line with one more part. -/
def put (l : Line) (i : Item) : Line := { l with items := l.items ++ [i] }

def written (p : Page) (l : Line) : Bytes :=
  Bytes.repeated p.indent l.level ++ l.items.flatMap Item.written

/-- The columns of the indentation and of all parts. -/
def columns (width : Bytes → Nat) (p : Page) (l : Line) : Nat :=
  l.level * p.indentWidth + (l.items.map (Item.columns width)).sum

/-- The width of the line as it is kept track of. -/
def tracked (width : Bytes → Nat) (p : Page) (l : Line) : Int :=
  Integer.wrap (l.columns width p)

/-- Whether the line could break somewhere but does not. -/
def keepsFlat (l : Line) : Bool := l.items.any Item.isFlat

section

variable (width : Bytes → Nat) (p : Page) (l : Line) (i : Item)

theorem written_put : (l.put i).written p = l.written p ++ i.written := by
  simp [written, put]

theorem columns_put : (l.put i).columns width p = l.columns width p + i.columns width := by
  simp [columns, put, Nat.add_assoc]

theorem keepsFlat_put : (l.put i).keepsFlat = (l.keepsFlat || i.isFlat) := by
  simp [keepsFlat, put]

end

end Line

/-- Lays the waiting documents on lines, from the line that is begun on. -/
def lay (width : Bytes → Nat) (p : Page) (l : Line) : List Frame → List Line
  | [] => [l]
  | ⟨_, _, .empty⟩ :: fs => lay width p l fs
  | ⟨_, _, .text s⟩ :: fs => lay width p (l.put (.text s)) fs
  | ⟨_, flat, .ifBreak s⟩ :: fs =>
    if flat then lay width p l fs else lay width p (l.put (.text s)) fs
  | ⟨i, _, .line⟩ :: fs => l :: lay width p ⟨i, []⟩ fs
  | ⟨i, flat, .softLine⟩ :: fs =>
    if flat then lay width p (l.put .flatLine) fs else l :: lay width p ⟨i, []⟩ fs
  | ⟨i, flat, .softBreak⟩ :: fs =>
    if flat then lay width p (l.put .flatBreak) fs else l :: lay width p ⟨i, []⟩ fs
  | ⟨i, flat, .append a b⟩ :: fs => lay width p l (⟨i, flat, a⟩ :: ⟨i, flat, b⟩ :: fs)
  | ⟨i, flat, .indent d⟩ :: fs => lay width p l (⟨i + 1, flat, d⟩ :: fs)
  | ⟨i, flat, .group d⟩ :: fs =>
    if flat || fits width (Integer.wrap (p.lineWidth - l.columns width p)) (⟨i, true, d⟩ :: fs) then
      lay width p l (⟨i, true, d⟩ :: fs)
    else lay width p l (⟨i, false, d⟩ :: fs)
termination_by fs => weight fs
decreasing_by all_goals simp [weight, size]; try omega

def lines (width : Bytes → Nat) (p : Page) (d : Doc) : List Line :=
  lay width p ⟨p.baseIndent, []⟩ [⟨p.baseIndent, false, d⟩]

section Written

variable {width : Bytes → Nat} {p : Page}

theorem lay_ne_nil (l : Line) (fs : List Frame) : lay width p l fs ≠ [] := by
  fun_induction lay width p l fs <;> simp_all

/-- The lines that are laid are those that are written. -/
theorem join_lay (l : Line) (fs : List Frame) :
    Bytes.join p.newline ((lay width p l fs).map (Line.written p)) =
      l.written p ++ write width p (l.columns width p) fs := by
  have hbreak (l : Line) (i : Nat) (fs : List Frame)
      (ih : Bytes.join p.newline ((lay width p ⟨i, []⟩ fs).map (Line.written p)) =
        Line.written p ⟨i, []⟩ ++ write width p (Line.columns width p ⟨i, []⟩) fs) :
      Bytes.join p.newline ((l :: lay width p ⟨i, []⟩ fs).map (Line.written p)) =
        l.written p ++ (p.lineBreak i ++ write width p (i * p.indentWidth) fs) := by
    have hne : (lay width p ⟨i, []⟩ fs).map (Line.written p) ≠ [] := by
      simpa using lay_ne_nil _ fs
    rw [List.map_cons, Bytes.join_cons_of_ne_nil _ _ hne, ih]
    simp [Page.lineBreak, Line.written, Line.columns]
  fun_induction lay width p l fs with
  | case1 l => simp [Bytes.join, write]
  | case2 l i flat fs ih => rw [ih, write]
  | case3 l i flat s fs ih =>
    rw [ih, write, Line.written_put, Line.columns_put, List.append_assoc]
    rfl
  | case4 l i s fs ih => rw [ih, write]; rfl
  | case5 l i flat s fs hflat ih =>
    rw [ih, write, if_neg hflat, Line.written_put, Line.columns_put, List.append_assoc]
    rfl
  | case6 l i flat fs ih => rw [hbreak l i fs ih, write]
  | case7 l i fs ih =>
    rw [ih, write, if_pos rfl, Line.written_put, Line.columns_put, List.append_assoc]
    rfl
  | case8 l i flat fs hflat ih => rw [hbreak l i fs ih, write, if_neg hflat]
  | case9 l i fs ih =>
    rw [ih, write, if_pos rfl, Line.written_put, Line.columns_put, List.append_assoc]
    rfl
  | case10 l i flat fs hflat ih => rw [hbreak l i fs ih, write, if_neg hflat]
  | case11 l i flat a b fs ih => rw [ih, write]
  | case12 l i flat d fs ih => rw [ih, write]
  | case13 l i flat d fs hfits ih => rw [ih, write, if_pos hfits]
  | case14 l i flat d fs hbroken ih => rw [ih, write, if_neg hbroken]

end Written

/-! ## Looking ahead -/

section Room

/-- Columns taken from a room that has enough of them are not miscounted. -/
theorem wrap_sub {n : Int} {k : Nat} (h : 0 ≤ Integer.wrap n - k) :
    Integer.wrap (n - k) = Integer.wrap n - k := by
  unfold Integer.wrap at *
  simp only [Int.bmod_def] at *
  split at h <;> split <;> omega

/-- What does not overdraw the room is not wider than the limit. -/
theorem wrap_le_of_room {limit columns : Nat} (h : 0 ≤ Integer.wrap (limit - columns)) :
    Integer.wrap columns ≤ limit := by
  unfold Integer.wrap at *
  simp only [Int.bmod_def] at *
  split at h <;> split <;> omega

variable {width : Bytes → Nat}

theorem room_nonneg_of_fits {room : Int} {fs : List Frame} (h : fits width room fs = true) :
    0 ≤ room := by
  cases fs with
  | nil =>
    rw [fits] at h
    exact of_decide_eq_true h
  | cons f fs =>
    rw [fits.eq_def] at h
    simp only at h
    split at h
    · cases h
    · omega

/-- What a document takes of the room for those behind it, or that the line ends in it. -/
theorem fits_cons {room : Int} {f : Frame} {fs : List Frame} :
    fits width room (f :: fs) = true →
    (match f with
      | ⟨_, _, .empty⟩ => fits width room fs
      | ⟨_, _, .text s⟩ => fits width (room - width s) fs
      | ⟨_, flat, .ifBreak s⟩ => fits width (if flat then room else room - width s) fs
      | ⟨_, _, .line⟩ => true
      | ⟨_, flat, .softLine⟩ => if flat then fits width (room - 1) fs else true
      | ⟨_, flat, .softBreak⟩ => if flat then fits width room fs else true
      | ⟨i, flat, .append a b⟩ => fits width room (⟨i, flat, a⟩ :: ⟨i, flat, b⟩ :: fs)
      | ⟨i, flat, .indent d⟩ => fits width room (⟨i + 1, flat, d⟩ :: fs)
      | ⟨i, _, .group d⟩ => fits width room (⟨i, true, d⟩ :: fs)) = true := by
  intro h
  have hroom := room_nonneg_of_fits h
  rw [fits.eq_def] at h
  simp only [if_neg (Int.not_lt.mpr hroom)] at h
  exact h

variable (width) (p : Page)

/-- The room that a line leaves for what waits. -/
def Line.room (l : Line) : Int := Integer.wrap (p.lineWidth - l.columns width p)

variable {width p} {l : Line}

/-- A line with room left is not too wide. -/
theorem Line.tracked_le_of_fits {fs : List Frame} (h : fits width (l.room width p) fs = true) :
    l.tracked width p ≤ p.lineWidth := wrap_le_of_room (room_nonneg_of_fits h)

/-- What fits behind a part fits on the line that the part has been put on. -/
theorem Line.fits_put {i : Item} {fs : List Frame}
    (h : fits width (l.room width p - i.columns width) fs = true) :
    fits width ((l.put i).room width p) fs = true := by
  have hroom : (l.put i).room width p = l.room width p - i.columns width := by
    unfold Line.room at *
    rw [Line.columns_put, ← wrap_sub (room_nonneg_of_fits h), Int.natCast_add, Int.sub_sub]
  rwa [hroom]

end Room

/-! ## Documents whose groups can stand on one line -/

/-- A document in which no line has to end. -/
def Lineless : Doc → Prop
  | .line => False
  | .append a b => a.Lineless ∧ b.Lineless
  | .indent d | .group d => d.Lineless
  | _ => True

/-- A document in whose groups no line has to end. -/
def GroupsLineless : Doc → Prop
  | .append a b => a.GroupsLineless ∧ b.GroupsLineless
  | .indent d => d.GroupsLineless
  | .group d => d.Lineless
  | _ => True

theorem Lineless.groupsLineless {d : Doc} (h : d.Lineless) : d.GroupsLineless := by
  induction d with
  | append a b iha ihb => exact ⟨iha h.1, ihb h.2⟩
  | indent d ih => exact ih h
  | group d _ => exact h
  | _ => trivial

/-- Waiting documents: first those that are kept flat, in which no line has to end, then those that
are broken, whose groups may still be kept flat. -/
def Orderly : List Frame → Prop
  | [] => True
  | f :: fs =>
    (if f.flat then f.doc.Lineless
      else f.doc.GroupsLineless ∧ ∀ g ∈ fs, g.flat = false) ∧ Orderly fs

section Orderly

variable {i : Nat} {flat : Bool} {d a b : Doc} {fs : List Frame}

theorem Orderly.tail {f : Frame} (h : Orderly (f :: fs)) : Orderly fs := h.2

theorem Orderly.broken {f : Frame} (h : Orderly (f :: fs)) (hf : f.flat = false) :
    ∀ g ∈ fs, g.flat = false := by
  have h := h.1
  rw [hf] at h
  exact h.2

theorem Orderly.not_line (h : Orderly (⟨i, flat, .line⟩ :: fs)) : flat = false := by
  cases flat with
  | false => rfl
  | true => exact h.1.elim

theorem Orderly.append (h : Orderly (⟨i, flat, .append a b⟩ :: fs)) :
    Orderly (⟨i, flat, a⟩ :: ⟨i, flat, b⟩ :: fs) := by
  obtain ⟨hf, hfs⟩ := h
  cases flat with
  | true => exact ⟨hf.1, hf.2, hfs⟩
  | false => exact ⟨⟨hf.1.1, List.forall_mem_cons.mpr ⟨rfl, hf.2⟩⟩, ⟨hf.1.2, hf.2⟩, hfs⟩

theorem Orderly.indent {j : Nat} (h : Orderly (⟨i, flat, .indent d⟩ :: fs)) :
    Orderly (⟨j, flat, d⟩ :: fs) := by
  cases flat <;> exact h

/-- A group that is kept flat waits in order, whether or not it had to be. -/
theorem Orderly.group_flat (h : Orderly (⟨i, flat, .group d⟩ :: fs)) :
    Orderly (⟨i, true, d⟩ :: fs) := by
  cases flat with
  | true => exact h
  | false => exact ⟨h.1.1, h.2⟩

theorem Orderly.group_broken (h : Orderly (⟨i, false, .group d⟩ :: fs)) :
    Orderly (⟨i, false, d⟩ :: fs) := ⟨⟨Lineless.groupsLineless h.1.1, h.1.2⟩, h.2⟩

end Orderly

/-! ## Lines that keep something flat -/

/-- Whether the first of the waiting documents is kept flat. -/
def startsFlat : List Frame → Bool
  | [] => false
  | f :: _ => f.flat

theorem startsFlat_of_broken {fs : List Frame} (h : ∀ f ∈ fs, f.flat = false) :
    startsFlat fs = false := by
  cases fs with
  | nil => rfl
  | cons f fs => exact h f List.mem_cons_self

/-- What waits fits on the line if something is kept flat on it, or is about to be. -/
def Holds (width : Bytes → Nat) (p : Page) (l : Line) (fs : List Frame) : Prop :=
  l.keepsFlat = true ∨ startsFlat fs = true → fits width (l.room width p) fs = true

section Fits

variable {width : Bytes → Nat} {p : Page} {l m : Line} {f : Frame} {fs : List Frame}

theorem Orderly.flat_of_startsFlat (h : Orderly (f :: fs)) (hfs : startsFlat fs = true) :
    f.flat = true := by
  cases hf : f.flat with
  | true => rfl
  | false =>
    rw [startsFlat_of_broken (h.broken hf)] at hfs
    exact nomatch hfs

/-- A document that is put on the line leaves what fits behind it. -/
theorem Holds.next (hfits : Holds width p l (f :: fs)) (h : Orderly (f :: fs))
    (hkept : m.keepsFlat = true → l.keepsFlat = true ∨ f.flat = true)
    (hnext : fits width (l.room width p) (f :: fs) = true →
      fits width (m.room width p) fs = true) : Holds width p m fs := by
  intro hflat
  refine hnext (hfits ?_)
  rcases hflat with hm | hfs
  · exact hkept hm
  · exact .inr (h.flat_of_startsFlat hfs)

/-- A new line keeps nothing flat, nor is anything about to be behind a document that is broken. -/
theorem Holds.newLine (h : Orderly (f :: fs)) (hf : f.flat = false) (i : Nat) :
    Holds width p ⟨i, []⟩ fs := by
  rintro (hkept | hfs)
  · exact nomatch hkept
  · rw [h.flat_of_startsFlat hfs] at hf
    exact nomatch hf

theorem Holds.tracked_le (hfits : Holds width p l fs) (hkept : l.keepsFlat = true) :
    l.tracked width p ≤ p.lineWidth := Line.tracked_le_of_fits (hfits (.inl hkept))

/-- Every line that is laid and keeps something flat fits. -/
theorem lay_fits (h : Orderly fs) (hfits : Holds width p l fs) :
    ∀ m ∈ lay width p l fs, m.keepsFlat = true → m.tracked width p ≤ p.lineWidth := by
  fun_induction lay width p l fs with
  | case1 l => exact List.forall_mem_singleton.mpr hfits.tracked_le
  | case2 l i flat fs ih => exact ih h.tail (hfits.next h .inl fits_cons)
  | case3 l i flat s fs ih =>
    refine ih h.tail (hfits.next h (fun hkept => .inl ?_) fun hf => Line.fits_put (fits_cons hf))
    rwa [Line.keepsFlat_put, Item.isFlat, Bool.or_false] at hkept
  | case4 l i s fs ih => exact ih h.tail (hfits.next h .inl fits_cons)
  | case5 l i flat s fs hflat ih =>
    refine ih h.tail (hfits.next h (fun hkept => .inl ?_) fun hf => Line.fits_put ?_)
    · rwa [Line.keepsFlat_put, Item.isFlat, Bool.or_false] at hkept
    · have hstep := fits_cons hf
      simp only [hflat] at hstep
      exact hstep
  | case6 l i flat fs ih =>
    exact List.forall_mem_cons.mpr
      ⟨hfits.tracked_le, ih h.tail (.newLine h h.not_line i)⟩
  | case7 l i fs ih =>
    exact ih h.tail (hfits.next h (fun _ => .inr rfl) fun hf => Line.fits_put (fits_cons hf))
  | case8 l i flat fs hflat ih =>
    exact List.forall_mem_cons.mpr
      ⟨hfits.tracked_le, ih h.tail (.newLine h (Bool.eq_false_iff.mpr hflat) i)⟩
  | case9 l i fs ih =>
    refine ih h.tail (hfits.next h (fun _ => .inr rfl) fun hf => Line.fits_put ?_)
    rw [Item.columns, Int.natCast_zero, Int.sub_zero]
    exact fits_cons hf
  | case10 l i flat fs hflat ih =>
    exact List.forall_mem_cons.mpr
      ⟨hfits.tracked_le, ih h.tail (.newLine h (Bool.eq_false_iff.mpr hflat) i)⟩
  | case11 l i flat a b fs ih => exact ih h.append fun hflat => fits_cons (hfits hflat)
  | case12 l i flat d fs ih => exact ih h.indent fun hflat => fits_cons (hfits hflat)
  | case13 l i flat d fs hgroup ih =>
    refine ih h.group_flat fun _ => ?_
    rcases Bool.or_eq_true_iff.mp hgroup with hflat | hlooked
    · exact fits_cons (hfits (.inr hflat))
    · exact hlooked
  | case14 l i flat d fs hbroken ih =>
    obtain ⟨rfl, hlooked⟩ := Bool.or_eq_false_iff.mp (Bool.eq_false_iff.mpr hbroken)
    refine ih h.group_broken ?_
    rintro (hkept | hflat)
    · -- The group was looked at before, and it fitted.
      have hfitted : fits width (l.room width p) (⟨i, true, d⟩ :: fs) = true :=
        fits_cons (hfits (.inl hkept))
      rw [Line.room, hlooked] at hfitted
      exact nomatch hfitted
    · exact nomatch hflat

end Fits

/-! ## Lines that are too wide -/

/-- A document in whose texts no line ends. -/
def NewlineFree : Doc → Prop
  | .text s | .ifBreak s => Ascii.newline ∉ s
  | .append a b => a.NewlineFree ∧ b.NewlineFree
  | .indent d | .group d => d.NewlineFree
  | _ => True

/-- The parts of lines are the texts of the documents that are laid on them. -/
theorem newlineFree_lay {width : Bytes → Nat} {p : Page} {l : Line} {fs : List Frame}
    (hl : ∀ i ∈ l.items, Ascii.newline ∉ i.written) (h : ∀ f ∈ fs, f.doc.NewlineFree) :
    ∀ m ∈ lay width p l fs, ∀ i ∈ m.items, Ascii.newline ∉ i.written := by
  have hput {l : Line} {i : Item} (hl : ∀ i ∈ l.items, Ascii.newline ∉ i.written)
      (hi : Ascii.newline ∉ i.written) : ∀ j ∈ (l.put i).items, Ascii.newline ∉ j.written :=
    List.forall_mem_append.mpr ⟨hl, List.forall_mem_singleton.mpr hi⟩
  fun_induction lay width p l fs with
  | case1 l => exact List.forall_mem_singleton.mpr hl
  | case2 l i flat fs ih | case4 l i flat fs ih => exact ih hl (List.forall_mem_cons.mp h).2
  | case3 l i flat s fs ih | case5 l i flat s fs hflat ih =>
    obtain ⟨hs, hfs⟩ := List.forall_mem_cons.mp h
    exact ih (hput hl hs) hfs
  | case6 l i flat fs ih | case8 l i flat fs hflat ih | case10 l i flat fs hflat ih =>
    exact List.forall_mem_cons.mpr ⟨hl, ih nofun (List.forall_mem_cons.mp h).2⟩
  | case7 l i fs ih | case9 l i fs ih =>
    exact ih (hput hl (by decide)) (List.forall_mem_cons.mp h).2
  | case11 l i flat a b fs ih =>
    obtain ⟨⟨ha, hb⟩, hfs⟩ := List.forall_mem_cons.mp h
    exact ih hl (List.forall_mem_cons.mpr ⟨ha, List.forall_mem_cons.mpr ⟨hb, hfs⟩⟩)
  | case12 l i flat d fs ih | case13 l i flat d fs hgroup ih | case14 l i flat d fs hgroup ih =>
    obtain ⟨hd, hfs⟩ := List.forall_mem_cons.mp h
    exact ih hl (List.forall_mem_cons.mpr ⟨hd, hfs⟩)

/-- A document in whose groups no line has to end is written on lines of its texts, and where a
line is too wide, nothing on it is kept flat. -/
theorem overlong_lines_broken (width : Bytes → Nat) {request : PageRequest} {p : Page}
    (hpage : request.page width = .ok p) {d : Doc} (hgroups : d.GroupsLineless)
    (htexts : d.NewlineFree) :
    render width p d = Bytes.join p.newline ((d.lines width p).map (Line.written p)) ∧
      (p.newline = [Ascii.newline] ∨ p.newline = [Ascii.carriageReturn, Ascii.newline]) ∧
      (∀ l ∈ d.lines width p, ∀ i ∈ l.items, Ascii.newline ∉ i.written) ∧
      ∀ l ∈ d.lines width p, (p.lineWidth : Int) < l.tracked width p →
        ∀ i ∈ l.items, i.isFlat = false := by
  refine ⟨?_, (PageRequest.yields_page hpage).newline_eq,
    newlineFree_lay nofun (List.forall_mem_singleton.mpr htexts), ?_⟩
  · rw [lines, join_lay]
    simp [render, Line.written, Line.columns]
  · intro l hl hwide i hi
    have horderly : Orderly [⟨p.baseIndent, false, d⟩] := ⟨⟨hgroups, nofun⟩, trivial⟩
    have hholds : Holds width p ⟨p.baseIndent, []⟩ [⟨p.baseIndent, false, d⟩] := by
      rintro (hkept | hflat)
      · exact nomatch hkept
      · exact nomatch hflat
    refine Bool.eq_false_iff.mpr fun hflat => ?_
    have hle := lay_fits horderly hholds l hl (List.any_eq_true.mpr ⟨i, hi, hflat⟩)
    omega

/-- A group that fits, and one that does not, with a group in it that fits. -/
def twoGroups : Doc :=
  .append (.group (.append (.text (utf8 "aa")) (.append .softLine (.text (utf8 "bb")))))
    (.append .line
      (.group (.append (.text (utf8 "overlong text")) (.append .softLine
        (.group (.append (.text (utf8 "c")) (.append .softBreak (.text (utf8 "d")))))))))

/-- With room for eight bytes, one of the three lines is too wide and two keep something flat. -/
theorem overlong_lines_broken_twoGroups :
    let request : PageRequest := { lineWidth := 8 }
    let p : Page := ⟨8, Bytes.spaces 4, 4, 0, [Ascii.newline]⟩
    request.page List.length = .ok p ∧ twoGroups.GroupsLineless ∧ twoGroups.NewlineFree ∧
      (twoGroups.lines List.length p).map (Line.written p) =
        [utf8 "aa bb", utf8 "overlong text", utf8 "cd"] ∧
      render List.length p twoGroups = utf8 "aa bb\noverlong text\ncd" ∧
      ∀ l ∈ twoGroups.lines List.length p, (8 : Int) < l.tracked List.length p →
        ∀ i ∈ l.items, i.isFlat = false := by
  intro request p
  have hpage : request.page List.length = .ok p := by rfl
  have hgroups : twoGroups.GroupsLineless := by
    simp [twoGroups, GroupsLineless, Lineless]
  have htexts : twoGroups.NewlineFree := by
    simp only [twoGroups, NewlineFree]
    decide
  have hlines : (twoGroups.lines List.length p).map (Line.written p) =
      [utf8 "aa bb", utf8 "overlong text", utf8 "cd"] := by
    decide +kernel
  obtain ⟨hrender, -, -, hbroken⟩ := overlong_lines_broken List.length hpage hgroups htexts
  refine ⟨hpage, hgroups, htexts, hlines, ?_, hbroken⟩
  rw [hrender, hlines]
  decide +kernel

end ThriftLayout.Doc
