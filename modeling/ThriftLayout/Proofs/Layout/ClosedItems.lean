import ThriftLayout.Proofs.Layout.Brackets
import ThriftLayout.Proofs.Layout.FieldParts
import ThriftLayout.Proofs.Layout.FirmCuts

/-!
# The items of a collection are closed

Behind a closed text a scan is where it was in front of it, however deep that was. A closing bracket
at the top is tolerated, so a text may lead from the top to the top without being closed. But in a
closed text such a piece is closed as well: no depth grows by more than it does from the top, so
what the front of the text lost could not be made good behind it. So the text inside the brackets of
a value is cut into closed items, and these do not change the depth at which lines are indented.

Results:

* `IsClosed.cut`: a closed text cut where a scan from the top is at the top.
* `IsClosed.parts`: the items of a closed text are closed.
* `IsClosed.nestingDelta`: a closed text opens as many brackets as it closes.
-/
namespace ThriftLayout

/-! ## Depths that are bounded by others -/

namespace Depth

variable {d e f : Depth} {s : Bytes}

/-- A depth that is at most two others put together, in each kind of bracket. -/
structure Within (d e f : Depth) : Prop where
  angle : d.angle ≤ e.angle + f.angle
  paren : d.paren ≤ e.paren + f.paren
  brace : d.brace ≤ e.brace + f.brace
  bracket : d.bracket ≤ e.bracket + f.bracket

theorem within_start (d : Depth) : d.Within {} d := by
  constructor <;> exact Nat.le_of_eq (Nat.zero_add _).symm

theorem Within.antisymm (h : d.Within {} e) (h' : e.Within {} d) : d = e := by
  obtain ⟨h₁, h₂, h₃, h₄⟩ := h
  obtain ⟨h₁', h₂', h₃', h₄'⟩ := h'
  obtain ⟨a, p, b, k⟩ := d
  obtain ⟨a', p', b', k'⟩ := e
  simp only at *
  congr 1 <;> omega

theorem Within.step (h : d.Within e f) (b : UInt8) : (d.step b).Within (e.step b) f := by
  obtain ⟨hangle, hparen, hbrace, hbracket⟩ := h
  unfold Depth.step
  split <;> constructor <;> (try dsimp only) <;> omega

theorem Within.run (h : d.Within e f) (q : Quote) (s : Bytes) :
    (Scan.run ⟨q, d⟩ s).depth.Within (Scan.run ⟨q, e⟩ s).depth f := by
  induction s generalizing q d e with
  | nil => exact h
  | cons b s ih =>
    show (Scan.run (Scan.step ⟨q, d⟩ b) s).depth.Within (Scan.run (Scan.step ⟨q, e⟩ b) s).depth f
    unfold Scan.step Scan.holds
    split
    · exact ih h (q.step b)
    · exact ih (h.step b) q

end Depth

/-! ## Closed texts -/

/-- A text behind which a scan that started outside literals is where it was. -/
def IsClosed (s : Bytes) : Prop := ∀ d : Depth, Scan.run ⟨{}, d⟩ s = ⟨{}, d⟩

namespace IsClosed

variable {s t u v : Bytes} {b : UInt8}

theorem nil : IsClosed [] := fun _ => rfl

theorem append (hs : IsClosed s) (ht : IsClosed t) : IsClosed (s ++ t) := fun d => by
  rw [Scan.run_append, hs d, ht d]

theorem of_balanced (h : BalancedText s) : IsClosed s := by
  obtain ⟨ks, hcalm, hbalanced⟩ := h
  exact fun d => by rw [hcalm.run, hbalanced.back]

theorem of_neutral (h : ∀ b ∈ s, Ascii.isNeutral b = true) : IsClosed s := by
  intro d
  induction s with
  | nil => rfl
  | cons b s ih =>
    obtain ⟨hb, hs⟩ := List.forall_mem_cons.mp h
    have hout : Scan.holds ⟨{}, d⟩ b = false := Quote.isQuote_eq_false hb
    show Scan.run (Scan.step ⟨{}, d⟩ b) s = _
    rw [Scan.step, hout, if_neg Bool.false_ne_true, Scan.depth_step_neutral hb]
    exact ih hs

theorem of_terminator (h : IsTerminator s) : IsClosed s := by
  rcases h with rfl | ⟨b, hb, rfl⟩
  · exact nil
  · intro d
    have hout : Scan.holds ⟨{}, d⟩ b = false := Scan.isQuote_separator hb
    show Scan.step ⟨{}, d⟩ b = _
    rw [Scan.step, hout, if_neg Bool.false_ne_true, Scan.depth_step_separator hb]

/-- A closed text cut where a scan from the top is at the top. -/
theorem cut (h : IsClosed (u ++ v)) (hu : Scan.run {} u = {}) : IsClosed u ∧ IsClosed v := by
  have hquote (d : Depth) : (Scan.run ⟨{}, d⟩ u).quote = {} := by
    rw [Scan.run_quote, ← Scan.run_quote ⟨{}, {}⟩, show Scan.run ⟨{}, {}⟩ u = {} from hu]
  have hv : Scan.run {} v = {} := by
    have hwhole := h {}
    rw [Scan.run_append, show Scan.run ⟨{}, {}⟩ u = {} from hu] at hwhole
    exact hwhole
  have hmiddle (d : Depth) : Scan.run ⟨{}, d⟩ u = ⟨{}, (Scan.run ⟨{}, d⟩ u).depth⟩ :=
    congrArg (Scan.mk · (Scan.run ⟨{}, d⟩ u).depth) (hquote d)
  have hsame (d : Depth) : (Scan.run ⟨{}, d⟩ u).depth = d := by
    have hfront := d.within_start.run {} u
    have hback := (Scan.run ⟨{}, d⟩ u).depth.within_start.run {} v
    have hwhole := h d
    rw [Scan.run_append, hmiddle] at hwhole
    rw [show Scan.run ⟨{}, {}⟩ u = {} from hu] at hfront
    rw [hwhole, show Scan.run ⟨{}, {}⟩ v = {} from hv] at hback
    exact hfront.antisymm hback
  have hclosed : IsClosed u := fun d => by rw [hmiddle, hsame]
  refine ⟨hclosed, fun d => ?_⟩
  have hwhole := h d
  rwa [Scan.run_append, hclosed d] at hwhole

/-- A closed text does not start with a closing bracket. -/
theorem head (h : IsClosed (b :: s)) :
    b ∉ [Ascii.rangle, Ascii.rparen, Ascii.rbrace, Ascii.rbracket] := by
  intro hb
  have hstart : Scan.run {} [b] = {} ∧ Scan.run ⟨{}, ⟨1, 1, 1, 1⟩⟩ [b] ≠ ⟨{}, ⟨1, 1, 1, 1⟩⟩ := by
    simp only [List.mem_cons, List.not_mem_nil, or_false] at hb
    rcases hb with rfl | rfl | rfl | rfl <;> decide
  exact hstart.2 ((cut (u := [b]) h hstart.1).1 _)

theorem trim (h : IsClosed s) : IsClosed (Blank.trim s) := by
  obtain ⟨a, b, ha, hb, hs⟩ := trim_neutral s
  intro d
  have hwhole := h d
  rw [hs, List.append_assoc, Scan.run_append, of_neutral ha d, Scan.run_append] at hwhole
  -- The blanks behind the text hold no quote that could close a literal.
  have hgood : (Scan.run ⟨{}, d⟩ (Blank.trim s)).quote.Good := by
    rw [Scan.run_quote]
    exact Quote.good_start.run _
  have hquote : (Scan.run ⟨{}, d⟩ (Blank.trim s)).quote = {} := by
    refine hgood.eq_start_of_run (fun x hx => Quote.isQuote_eq_false (hb x hx)) ?_
    rw [← Scan.run_quote, hwhole]
  generalize Scan.run ⟨{}, d⟩ (Blank.trim s) = st at hwhole hquote
  obtain ⟨q, e⟩ := st
  obtain rfl : q = {} := hquote
  rw [of_neutral hb e] at hwhole
  exact hwhole

end IsClosed

/-! ## Items -/

/-- A list is cut at its first separator outside all literals and brackets. -/
theorem segments_go_cut (st : Scan) (s : Bytes) : segments.go st s = [⟨s, []⟩] ∨
    ∃ u b v, s = u ++ b :: v ∧ Ascii.isSeparator b = true ∧ (st.run u).isTop b = true ∧
      segments.go st s = ⟨u, [b]⟩ :: segments.go ((st.run u).step b) v := by
  induction s generalizing st with
  | nil => exact .inl rfl
  | cons b s ih =>
    rw [segments.go]
    split
    · rename_i hb
      obtain ⟨hsep, htop⟩ := Bool.and_eq_true_iff.mp hb
      exact .inr ⟨[], b, s, rfl, hsep, htop, rfl⟩
    · obtain hone | ⟨u, c, v, rfl, hsep, htop, hmore⟩ := ih (st.step b)
      · exact .inl (by rw [hone])
      · exact .inr ⟨b :: u, c, v, rfl, hsep, htop, by rw [hmore]; rfl⟩

namespace IsClosed

variable {s : Bytes}

theorem segments (h : IsClosed s) : ∀ p ∈ segments s, IsClosed p.text := by
  induction hn : s.length using Nat.strong_induction_on generalizing s with
  | _ n ih =>
    subst hn
    obtain hone | ⟨u, b, v, rfl, hsep, htop, hmore⟩ := segments_go_cut {} s
    · intro p hp
      rw [ThriftLayout.segments, hone, List.mem_singleton] at hp
      rwa [hp]
    · have hu := Scan.eq_start_of_isTop (fun _ => Scan.depth_step_separator hsep) htop
      obtain ⟨hclosed, hrest⟩ := h.cut hu
      have hb : IsClosed [b] := of_terminator (.inr ⟨b, hsep, rfl⟩)
      have hv : IsClosed v := (cut (u := [b]) hrest (hb {})).2
      rw [ThriftLayout.segments, hmore, hu, show Scan.step {} b = {} from hb {}]
      refine List.forall_mem_cons.mpr ⟨hclosed, ih _ ?_ hv rfl⟩
      rw [List.length_append, List.length_cons]
      omega

theorem parts (h : IsClosed s) : ∀ p ∈ parts s, IsClosed p.text := by
  intro p hp
  obtain ⟨q, hq, rfl⟩ := List.mem_map.mp (List.mem_filter.mp hp).1
  exact (h.segments q hq).trim

end IsClosed

/-! ## Counting brackets -/

/-- Each kind of bracket is open at least so many times. -/
structure Depth.AtLeast (n : Nat) (d : Depth) : Prop where
  angle : n ≤ d.angle
  paren : n ≤ d.paren
  brace : n ≤ d.brace
  bracket : n ≤ d.bracket

theorem Depth.AtLeast.step {n : Nat} {d : Depth} (h : d.AtLeast (n + 1)) (b : UInt8) :
    (d.step b).AtLeast n := by
  obtain ⟨hangle, hparen, hbrace, hbracket⟩ := h
  unfold Depth.step
  split <;> constructor <;> (try dsimp only) <;> omega

theorem Depth.AtLeast.mono {m n : Nat} {d : Depth} (h : d.AtLeast n) (hle : m ≤ n) :
    d.AtLeast m :=
  ⟨Nat.le_trans hle h.angle, Nat.le_trans hle h.paren, Nat.le_trans hle h.brace,
    Nat.le_trans hle h.bracket⟩

/-- Where no closing bracket is left over, what a weight adds up to is how a count of open brackets
changes. -/
theorem count_eq_sumCode {count : Depth → Int} {weight : UInt8 → Int}
    (hstep : ∀ (d : Depth) (b : UInt8), d.AtLeast 1 → count (d.step b) = count d + weight b)
    {d : Depth} {s : Bytes} (h : d.AtLeast s.length) (q : Quote) :
    count (Scan.run ⟨q, d⟩ s).depth = count d + sumCode.go weight q s := by
  induction s generalizing q d with
  | nil => exact (Int.add_zero _).symm
  | cons b s ih =>
    show count (Scan.run (Scan.step ⟨q, d⟩ b) s).depth = _
    unfold sumCode.go Scan.step Scan.holds
    split
    · rw [ih (h.mono (Nat.le_succ s.length)) (q.step b), Int.zero_add]
    · rename_i hout
      rw [Bool.not_eq_true] at hout
      rw [ih (h.step b) q, hstep d b (h.mono (Nat.succ_pos s.length)), Quote.step_of_not_holds hout,
        Int.add_assoc]

namespace IsClosed

variable {s : Bytes}

theorem sumCode (count : Depth → Int) {weight : UInt8 → Int}
    (hstep : ∀ (d : Depth) (b : UInt8), d.AtLeast 1 → count (d.step b) = count d + weight b)
    (h : IsClosed s) : sumCode weight s = 0 := by
  have hdeep : Depth.AtLeast s.length ⟨s.length, s.length, s.length, s.length⟩ := by
    constructor <;> exact Nat.le_refl _
  have hcount := count_eq_sumCode hstep hdeep {}
  rw [h] at hcount
  dsimp only at hcount
  unfold ThriftLayout.sumCode
  omega

/-- A closed text opens as many brackets as it closes. -/
theorem nestingDelta (h : IsClosed s) : nestingDelta s = 0 := by
  have hbrackets : bracketDelta s = 0 := by
    refine h.sumCode (fun d => d.brace + d.bracket) fun d b hd => ?_
    obtain ⟨-, -, hbrace, hbracket⟩ := hd
    unfold Depth.step
    split
    case h_9 => simp_all
    all_goals
      simp +decide
      try omega
  have hparens : parenDelta s = 0 := by
    refine h.sumCode (fun d => d.paren) fun d b hd => ?_
    have hparen := hd.paren
    unfold Depth.step
    split
    case h_9 => simp_all
    all_goals
      simp +decide
      try omega
  rw [ThriftLayout.nestingDelta, hbrackets, hparens]
  rfl

end IsClosed

end ThriftLayout
