import ThriftLayout.Proofs.Document.Values

/-!
# Reading steps and the phrases they read

A step reads a language if it takes a phrase of that language wherever one stands, and reports a
fault wherever it does not take one. One token decides at every choice, so a phrase must not be
followed by what could still belong to it; the kinds of tokens that a phrase begins with and those
that must not follow it are kept beside the language (`Shape`).

Results:

* `Parse.Reads.bind`, `Parse.Reads.choice`: one step after another, one step or another.
* `Parse.Reads.untilMark`, `Parse.Reads.body`: repeated steps.
-/
namespace ThriftLayout

open Computability
open Phrase (one mark optional)

/-- What phrases begin with, whether a phrase may be empty, and what must not follow a phrase. -/
structure Shape where
  heads : List TokenKind
  empty : Bool
  shuns : List TokenKind

namespace Shape

def nothing : Shape := ⟨[], true, []⟩

def token (k : TokenKind) : Shape := ⟨[k], false, []⟩

/-- The shape of a phrase after another one. -/
def andThen (s s' : Shape) : Shape where
  heads := if s.empty then s.heads ++ s'.heads else s.heads
  empty := s.empty && s'.empty
  shuns := if s'.empty then s.shuns ++ s'.shuns else s'.shuns

/-- The shape of a phrase that begins with given kinds, or of another one. -/
def orElse (ks : List TokenKind) (s s' : Shape) : Shape where
  heads := ks ++ s'.heads
  empty := s'.empty
  shuns := s.shuns ++ s'.shuns ++ if s'.empty then ks else []

/-- One shape says no more than another one. -/
structure Within (s s' : Shape) : Prop where
  heads : s.heads ⊆ s'.heads
  empty : s'.empty = false → s.empty = false
  shuns : s.shuns ⊆ s'.shuns

instance (s s' : Shape) : Decidable (s.Within s') :=
  decidable_of_iff (s.heads ⊆ s'.heads ∧ (s'.empty = false → s.empty = false) ∧
    s.shuns ⊆ s'.shuns) ⟨fun ⟨a, b, c⟩ => ⟨a, b, c⟩, fun ⟨a, b, c⟩ => ⟨a, b, c⟩⟩

/-- The phrases of a language have a shape. -/
structure Fits (s : Shape) (l : Language Token) : Prop where
  heads : ∀ ts ∈ l, ∀ t ∈ ts.head?, t.kind ∈ s.heads
  nonempty : s.empty = false → [] ∉ l

variable {s s' : Shape} {l l' : Language Token}

theorem Fits.within (h : s.Fits l) (hs : s.Within s') : s'.Fits l where
  heads ts hts t ht := hs.heads (h.heads ts hts t ht)
  nonempty he := h.nonempty (hs.empty he)

theorem fits_nothing : nothing.Fits 1 where
  heads ts hts t ht := by
    rw [(Language.mem_one _).mp hts] at ht
    exact nomatch ht
  nonempty := nofun

theorem fits_token (k : TokenKind) : (token k).Fits (one k) where
  heads := by
    rintro _ ⟨t, rfl, rfl⟩ u hu
    rw [← Option.some.inj hu]
    exact List.mem_singleton_self _
  nonempty := by
    rintro - ⟨t, ht, -⟩
    exact nomatch ht

theorem Fits.andThen (h : s.Fits l) (h' : s'.Fits l') : (s.andThen s').Fits (l * l') where
  heads := by
    rintro _ ⟨ts, hts, us, hus, rfl⟩ t ht
    unfold Shape.andThen
    cases ts with
    | nil =>
      have hempty : s.empty = true := by
        by_contra hne
        exact h.nonempty (Bool.eq_false_iff.mpr hne) hts
      simp only [if_pos hempty]
      exact List.mem_append_right _ (h'.heads us hus t ht)
    | cons u ts =>
      have hmem := h.heads _ hts t ht
      split
      · exact List.mem_append_left _ hmem
      · exact hmem
  nonempty := by
    rintro hempty ⟨ts, hts, us, hus, hnil⟩
    obtain ⟨rfl, rfl⟩ := List.append_eq_nil_iff.mp hnil
    rcases Bool.and_eq_false_iff.mp hempty with he | he
    · exact h.nonempty he hts
    · exact h'.nonempty he hus

theorem Fits.orElse {ks : List TokenKind} (h : ∀ ts ∈ l, ∃ t us, ts = t :: us ∧ t.kind ∈ ks)
    (h' : s'.Fits l') : (s.orElse ks s').Fits (l' + l) where
  heads := by
    rintro ts (hts | hts) t ht
    · exact List.mem_append_right _ (h'.heads ts hts t ht)
    · obtain ⟨u, us, rfl, hu⟩ := h ts hts
      rw [← Option.some.inj ht]
      exact List.mem_append_left _ hu
  nonempty := by
    rintro hempty (hnil | hnil)
    · exact h'.nonempty hempty hnil
    · obtain ⟨t, us, ht, -⟩ := h [] hnil
      exact nomatch ht

/-- A phrase that is not empty has a first token. -/
theorem Fits.exists_head (h : s.Fits l) (he : s.empty = false) {ts : List Token} (hts : ts ∈ l) :
    ∃ t us, ts = t :: us ∧ t.kind ∈ s.heads := by
  cases ts with
  | nil => exact absurd hts (h.nonempty he)
  | cons t us => exact ⟨t, us, rfl, h.heads _ hts t rfl⟩

theorem Fits.shuns_append (h : s.Fits l) {ks : List TokenKind} {ts rest : List Token}
    (hts : ts ∈ l) (hks : ∀ k ∈ ks, k ∉ s.heads) (hrest : s.empty = true → Shuns ks rest) :
    Shuns ks (ts ++ rest) := by
  cases ts with
  | nil =>
    refine hrest ?_
    by_contra hne
    exact h.nonempty (Bool.eq_false_iff.mpr hne) hts
  | cons t ts => exact shuns_cons fun hk => hks t.kind hk (h.heads _ hts t rfl)

end Shape

theorem Shuns.mono {ks ks' : List TokenKind} {ts : List Token} (h : Shuns ks ts) (hks : ks' ⊆ ks) :
    Shuns ks' ts := fun t ht hk => h t ht (hks hk)

def Phrase.such (p : Token → Bool) : Language Token := {ts | ∃ t, ts = [t] ∧ p t = true}

instance : Nonempty Token := ⟨⟨.eof, [], 0, 0⟩⟩

namespace Parse

variable {α β : Type} {m : Parse α} {c : Cursor} {l l' : Language Token} {s s' : Shape}
  {ks : List TokenKind}

/-- At a cursor, a step reads a language: it takes a phrase or reports a fault, and it takes a
phrase that stands there with none of the given kinds behind it. -/
structure ReadsAt (m : Parse α) (c : Cursor) (l : Language Token) (ks : List TokenKind) : Prop where
  sound : ∃ ts fs, c.Goes ts fs (m c).2 ∧ (fs = [] → (m c).1.isSome ∧ ts ∈ l)
  complete : ∀ ts rest, ts ∈ l → c.rest = ts ++ rest → Shuns ks rest →
    ∃ a d, m c = (some a, d) ∧ c.Goes ts [] d

/-- A step reads a language of a shape, at every cursor. -/
structure Reads (m : Parse α) (l : Language Token) (s : Shape) : Prop where
  fits : s.Fits l
  readsAt : ∀ c : Cursor, c.eof.kind = .eof → m.ReadsAt c l s.shuns

theorem ReadsAt.mono (h : m.ReadsAt c l ks) {ks' : List TokenKind} (hks : ks ⊆ ks') :
    m.ReadsAt c l ks' :=
  ⟨h.sound, fun ts rest hts hrest hshuns => h.complete ts rest hts hrest (hshuns.mono hks)⟩

theorem Reads.within (h : m.Reads l s) (hs : s.Within s') : m.Reads l s' :=
  ⟨h.fits.within hs, fun c hc => (h.readsAt c hc).mono hs.shuns⟩

/-- The language and the shape of a step, written differently. -/
theorem Reads.as (h : m.Reads l s) (hs : s.Within s') (hl : l' = l) : m.Reads l' s' :=
  hl ▸ h.within hs

theorem ReadsAt.as (h : m.ReadsAt c l ks) (hl : l' = l) {ks' : List TokenKind} (hks : ks ⊆ ks') :
    m.ReadsAt c l' ks' := hl ▸ h.mono hks

theorem ReadsAt.of_eq {m' : Parse α} (h : m c = m' c) (hm : m'.ReadsAt c l ks) :
    m.ReadsAt c l ks where
  sound := by
    rw [h]
    exact hm.sound
  complete := by
    rw [h]
    exact hm.complete

theorem readsAt_of_tries (h : c.Tries l (m c))
    (htakes : ∀ ts rest, ts ∈ l → c.rest = ts ++ rest → Shuns ks rest →
      ∃ a d, m c = (some a, d) ∧ c.Goes ts [] d) : m.ReadsAt c l ks where
  sound := by
    rcases h with ⟨ha, ts, hts, hgoes⟩ | ⟨-, ts, fs, hfs, hgoes⟩
    · exact ⟨ts, [], hgoes, fun _ => ⟨ha, hts⟩⟩
    · exact ⟨ts, fs, hgoes, fun hnil => absurd hnil hfs⟩
  complete := htakes

/-! ## Single steps -/

theorem reads_view (f : Cursor → α) : Reads (view f) 1 .nothing where
  fits := Shape.fits_nothing
  readsAt c _ := by
    refine ⟨⟨[], [], .refl c, fun _ => ⟨rfl, Language.nil_mem_one⟩⟩, fun ts rest hts _ _ => ?_⟩
    rw [(Language.mem_one _).mp hts]
    exact ⟨f c, c, rfl, .refl c⟩

theorem reads_pure (a : α) : Reads (pure a) 1 .nothing := reads_view fun _ => a

theorem reads_fail (f : ParseFault) (t : Token) :
    Reads (fail f t : Parse α) 0 ⟨[], false, []⟩ where
  fits := ⟨nofun, nofun⟩
  readsAt c _ := ⟨⟨[], _, (Cursor.Goes.refl c).report f t, nofun⟩, nofun⟩

theorem reads_expect {k : TokenKind} (hk : k ≠ .eof) (what : Bytes) :
    Reads (expect k what) (one k) (.token k) where
  fits := Shape.fits_token k
  readsAt c hc := readsAt_of_tries (tries_expect hc hk what) fun ts rest hts hrest _ => by
    obtain ⟨t, rfl, ht⟩ := hts
    exact ⟨t, _, expect_of_cons ht hrest what, Cursor.goes_advance hrest⟩

theorem readsAt_next (ks : List TokenKind) {p : Token → Bool} (hp : ∀ t, p t = true → t.kind ∈ ks)
    (hks : .eof ∉ ks) (hc : c.eof.kind = .eof) (h : p c.peek = true) :
    next.ReadsAt c (Phrase.such p) [] where
  sound := ⟨[c.peek], [], Cursor.goes_advance_of_peek hc fun heof => hks (heof ▸ hp _ h), fun _ =>
    ⟨rfl, c.peek, rfl, h⟩⟩
  complete := by
    rintro _ rest ⟨t, rfl, -⟩ hrest -
    exact ⟨c.peek, c.advance, rfl, Cursor.goes_advance hrest⟩

/-! ## One step after another -/

theorem ReadsAt.bind [Nonempty α] (hm : m.ReadsAt c l ks) (hc : c.eof.kind = .eof)
    {f : α → Parse β} (hks : ∀ k ∈ ks, k ∉ s'.heads) (hf : ∀ a, (f a).Reads l' s') :
    (m >>= f).ReadsAt c (l * l') (if s'.empty then ks ++ s'.shuns else s'.shuns) where
  sound := by
    obtain ⟨ts, fs, hgoes, hread⟩ := hm.sound
    rcases hrun : m c with ⟨_ | a, d⟩
    · rw [hrun] at hgoes hread
      rw [bind_of_none hrun]
      exact ⟨ts, fs, hgoes, fun hfs => absurd (hread hfs).1 nofun⟩
    · rw [hrun] at hgoes hread
      rw [bind_of_some hrun]
      obtain ⟨us, gs, hmore, hreadMore⟩ := ((hf a).readsAt d (hgoes.eof ▸ hc)).sound
      refine ⟨ts ++ us, fs ++ gs, hgoes.trans hmore, fun hnil => ?_⟩
      obtain ⟨hfs, hgs⟩ := List.append_eq_nil_iff.mp hnil
      exact ⟨(hreadMore hgs).1, Phrase.mul_mem (hread hfs).2 (hreadMore hgs).2⟩
  complete := by
    rintro _ rest ⟨ts, hts, us, hus, rfl⟩ hrest hshuns
    have hsplit : c.rest = ts ++ (us ++ rest) := by rw [hrest, ← List.append_assoc]
    obtain ⟨a₀⟩ := ‹Nonempty α›
    have hbehind : Shuns ks (us ++ rest) := by
      refine (hf a₀).fits.shuns_append hus hks fun hempty => ?_
      rw [if_pos hempty] at hshuns
      exact hshuns.mono (List.subset_append_left _ _)
    obtain ⟨a, d, hrun, hgoes⟩ := hm.complete ts _ hts hsplit hbehind
    have hend : Shuns s'.shuns rest := by
      split at hshuns
      · exact hshuns.mono (List.subset_append_right _ _)
      · exact hshuns
    obtain ⟨b, e, hrun', hmore⟩ :=
      ((hf a).readsAt d (hgoes.eof ▸ hc)).complete us rest hus (hgoes.rest_eq hsplit) hend
    exact ⟨b, e, (bind_of_some hrun).trans hrun', by simpa using hgoes.trans hmore⟩

theorem Reads.bind [Nonempty α] (hm : m.Reads l s) {f : α → Parse β}
    (hks : ∀ k ∈ s.shuns, k ∉ s'.heads) (hf : ∀ a, (f a).Reads l' s') :
    (m >>= f).Reads (l * l') (s.andThen s') where
  fits := by
    obtain ⟨a₀⟩ := ‹Nonempty α›
    exact hm.fits.andThen (hf a₀).fits
  readsAt c hc := (hm.readsAt c hc).bind hc hks hf

theorem Reads.andThen [Nonempty α] {heads : List TokenKind} {empty : Bool}
    (hm : m.Reads l ⟨heads, empty, []⟩) {f : α → Parse β} (hf : ∀ a, (f a).Reads l' s') :
    (m >>= f).Reads (l * l') (.andThen ⟨heads, empty, []⟩ s') := hm.bind nofun hf

/-! ## One step or another -/

theorem Reads.choice (ks : List TokenKind) (p : Token → Bool) (hp : ∀ t, p t = true → t.kind ∈ ks)
    (hyes : ∀ c : Cursor, c.eof.kind = .eof → p c.peek = true → m.ReadsAt c l s.shuns)
    (hno : ∀ c : Cursor, c.eof.kind = .eof → p c.peek = false → m.ReadsAt c l' s'.shuns)
    (hl : ∀ ts ∈ l, ∃ t us, ts = t :: us ∧ p t = true) (hl' : s'.Fits l')
    (hks : ∀ k ∈ ks, k ∉ s'.heads ∧ k ≠ .eof) : m.Reads (l' + l) (s.orElse ks s') where
  fits := Shape.Fits.orElse (fun ts hts => by
    obtain ⟨t, us, rfl, ht⟩ := hl ts hts
    exact ⟨t, us, rfl, hp t ht⟩) hl'
  readsAt c hc := by
    constructor
    case sound =>
      cases hpeek : p c.peek with
      | true =>
        obtain ⟨ts, fs, hgoes, hread⟩ := (hyes c hc hpeek).sound
        exact ⟨ts, fs, hgoes, fun hfs => ⟨(hread hfs).1, .inr (hread hfs).2⟩⟩
      | false =>
        obtain ⟨ts, fs, hgoes, hread⟩ := (hno c hc hpeek).sound
        exact ⟨ts, fs, hgoes, fun hfs => ⟨(hread hfs).1, .inl (hread hfs).2⟩⟩
    case complete =>
      rintro ts rest (hts | hts) hrest hshuns
      · -- The other phrase, or what follows it, begins with none of the kinds.
        have hother : Shuns ks (ts ++ rest) := by
          refine hl'.shuns_append hts (fun k hk => (hks k hk).1) fun hempty => ?_
          exact hshuns.mono (by simp [Shape.orElse, hempty])
        have hpeek : p c.peek = false := by
          refine Bool.eq_false_iff.mpr fun hpeek => ?_
          have hkind := hp _ hpeek
          obtain ⟨us, hus⟩ := Cursor.cons_of_peek hc (hks _ hkind).2
          exact hother c.peek (by rw [← hrest, hus]; rfl) hkind
        exact (hno c hc hpeek).complete ts rest hts hrest (hshuns.mono (by simp [Shape.orElse]))
      · obtain ⟨t, us, rfl, ht⟩ := hl ts hts
        have hpeek : p c.peek = true := by rwa [Cursor.peek_of_cons hrest]
        exact (hyes c hc hpeek).complete _ rest hts hrest (hshuns.mono (by simp [Shape.orElse]))

/-- A step looks at the next token and goes one way or another. -/
theorem Reads.ifPeek (ks : List TokenKind) {p : Token → Bool} (hp : ∀ t, p t = true → t.kind ∈ ks)
    (hks : ∀ k ∈ ks, k ∉ s'.heads ∧ k ≠ .eof) {f g : Token → Parse α}
    (hf : ∀ c : Cursor, c.eof.kind = .eof → p c.peek = true → (f c.peek).ReadsAt c l s.shuns)
    (hg : ∀ t, (g t).Reads l' s') (hl : ∀ ts ∈ l, ∃ t us, ts = t :: us ∧ p t = true) :
    (peek >>= fun t => if p t then f t else g t).Reads (l' + l) (s.orElse ks s') := by
  obtain ⟨t⟩ : Nonempty Token := inferInstance
  refine Reads.choice ks p hp (fun c hc hpeek => (hf c hc hpeek).of_eq ?_)
    (fun c hc hpeek => ((hg c.peek).readsAt c hc).of_eq ?_) hl (hg t).fits hks
  · show (if p c.peek then f c.peek else g c.peek) c = f c.peek c
    rw [if_pos hpeek]
  · show (if p c.peek then f c.peek else g c.peek) c = g c.peek c
    rw [if_neg (Bool.eq_false_iff.mp hpeek)]

/-- A token is taken if it has a property. -/
theorem Reads.ifTaken (ks : List TokenKind) {p : Token → Bool} (hp : ∀ t, p t = true → t.kind ∈ ks)
    (hks : ∀ k ∈ ks, k ∉ s'.heads ∧ k ≠ .eof) {f : Token → Parse α} {g : Token → Parse α}
    (hf : ∀ t, (f t).Reads l s) (hg : ∀ t, (g t).Reads l' s') :
    (peek >>= fun t => if p t then next >>= f else g t).Reads (l' + Phrase.such p * l)
      (s.orElse ks s') := by
  refine Reads.ifPeek ks hp hks (fun c hc hpeek => ?_) hg ?_
  · have hnext := readsAt_next ks hp (fun heof => (hks _ heof).2 rfl) hc hpeek
    exact (hnext.bind hc nofun hf).mono (by split <;> simp)
  · rintro _ ⟨_, ⟨t, rfl, ht⟩, ts, -, rfl⟩
    exact ⟨t, ts, rfl, ht⟩

/-- A token is taken if it is of a kind, and what follows depends on that. -/
theorem Reads.accept {k : TokenKind} (hk : k ∉ s'.heads ∧ k ≠ .eof) {f : Bool → Parse α}
    (htaken : (f true).Reads l s) (hleft : (f false).Reads l' s') :
    (accept k >>= f).Reads (l' + one k * l) (s.orElse [k] s') := by
  refine Reads.choice [k] (fun t => t.kind == k) (fun t ht => by simpa using ht) ?_ ?_ ?_
    hleft.fits (by simpa using hk)
  · intro c hc hpeek
    have hrun : (Parse.accept k >>= f) c = f true c.advance :=
      bind_of_some (accept_of_sees hpeek)
    have hgoes := Cursor.goes_advance_of_peek hc (by rw [eq_of_beq hpeek]; exact hk.2)
    constructor
    · obtain ⟨ts, fs, hmore, hread⟩ := (htaken.readsAt c.advance (hgoes.eof ▸ hc)).sound
      rw [hrun]
      exact ⟨_, fs, hgoes.trans hmore, fun hfs =>
        ⟨(hread hfs).1, Phrase.cons_mem_mul (eq_of_beq hpeek) (hread hfs).2⟩⟩
    · rintro _ rest ⟨_, ⟨t, rfl, -⟩, ts, hts, rfl⟩ hrest hshuns
      have hadvance := Cursor.goes_advance (c := c) (t := t) hrest
      obtain ⟨a, d, hrun', hmore⟩ := (htaken.readsAt c.advance (hgoes.eof ▸ hc)).complete ts rest
        hts (hadvance.rest_eq hrest) hshuns
      exact ⟨a, d, hrun.trans hrun', hadvance.trans hmore⟩
  · intro c hc hpeek
    have hrun : (Parse.accept k >>= f) c = f false c :=
      bind_of_some (accept_of_not_sees (Bool.eq_false_iff.mp hpeek))
    exact (hleft.readsAt c hc).of_eq hrun
  · rintro _ ⟨_, ⟨t, rfl, ht⟩, ts, -, rfl⟩
    exact ⟨t, ts, rfl, by simpa using ht⟩

/-- A step that goes on elsewhere after it has failed. -/
theorem ReadsAt.orSkip (h : m.ReadsAt c l ks) : (orSkip m).ReadsAt c l ks where
  sound := by
    obtain ⟨ts, fs, hgoes, hread⟩ := h.sound
    rcases hrun : m c with ⟨_ | a, d⟩
    · rw [hrun] at hgoes hread
      obtain ⟨us, hus⟩ := hgoes.skipWhile fun t => !t.kind.isDefinition
      rw [Parse.orSkip, hrun]
      exact ⟨us, fs, hus, fun hfs => absurd (hread hfs).1 nofun⟩
    · rw [hrun] at hgoes hread
      rw [Parse.orSkip, hrun]
      exact ⟨ts, fs, hgoes, hread⟩
  complete ts rest hts hrest hshuns := by
    obtain ⟨a, d, hrun, hgoes⟩ := h.complete ts rest hts hrest hshuns
    exact ⟨a, d, by rw [Parse.orSkip, hrun], hgoes⟩

theorem Reads.orSkip (h : m.Reads l s) : (orSkip m).Reads l s :=
  ⟨h.fits, fun c hc => (h.readsAt c hc).orSkip⟩

/-! ## Repeated steps -/

section Items

variable {item : Parse α} (hitem : item.Reads l s) (hempty : s.empty = false)
include hitem hempty

theorem fits_repeated {k : TokenKind} :
    (Shape.mk (k :: s.heads) false []).Fits (l∗ * one k) where
  heads := by
    intro ts hts t ht
    rw [Phrase.kstar_mul] at hts
    rcases hts with ⟨u, rfl, rfl⟩ | ⟨us, hus, vs, -, rfl⟩
    · rw [← Option.some.inj ht]
      exact List.mem_cons_self
    · cases us with
      | nil => exact absurd hus (hitem.fits.nonempty hempty)
      | cons u us => exact List.mem_cons_of_mem _ (hitem.fits.heads _ hus t ht)
  nonempty := by
    rintro - ⟨us, -, _, ⟨t, rfl, -⟩, hnil⟩
    exact absurd (List.append_eq_nil_iff.mp hnil).2 (List.cons_ne_nil t [])

/-- Behind a phrase that is repeated stands another one or the closing token. -/
theorem shuns_repeated {k : TokenKind} (hk : ∀ j ∈ s.shuns, j ∉ k :: s.heads)
    {phrases : List (List Token)} (hphrases : ∀ ts ∈ phrases, ts ∈ l) {t : Token} (ht : t.kind = k)
    (rest : List Token) : Shuns s.shuns (phrases.flatten ++ (t :: rest)) := by
  have hall : phrases.flatten ++ [t] ∈ l∗ * one k :=
    Phrase.mul_mem (Language.mem_kstar.mpr ⟨phrases, rfl, hphrases⟩) (Phrase.singleton_mem ht)
  have hbehind : Shuns s.shuns ((phrases.flatten ++ [t]) ++ rest) :=
    (fits_repeated hitem hempty).shuns_append hall hk nofun
  simpa using hbehind

theorem Reads.goes_on {c d : Cursor} {ts : List Token} {fs : List (ParseFault × Token)}
    (hgoes : c.Goes ts fs d) (hts : ts ∈ l) : d.rest.length < c.rest.length := by
  refine hgoes.ne_nil_iff.mp ?_
  rintro rfl
  exact hitem.fits.nonempty hempty hts

/-- Items are read up to a fault, or to the mark that closes them. -/
theorem Reads.untilMark_sound (close : Mark) (hc : c.eof.kind = .eof) :
    ∃ ts fs, c.Goes ts fs (Parse.untilMark close item c).2 ∧
      (fs = [] → (Parse.untilMark close item c).1.isSome ∧ ts ∈ l∗ * mark close) := by
  fun_induction Parse.untilMark close item c with
  | case1 c hsees =>
    have hkind : c.peek.kind = .mark close := eq_of_beq hsees
    have hgoes := Cursor.goes_advance_of_peek hc (by rw [hkind]; exact nofun)
    refine ⟨[c.peek], [], hgoes, fun _ => ⟨rfl, ?_⟩⟩
    rw [Phrase.kstar_mul]
    exact .inl (Phrase.singleton_mem hkind)
  | case2 c _ d hd =>
    obtain ⟨ts, fs, hgoes, hread⟩ := (hitem.readsAt c hc).sound
    rw [hd] at hgoes hread
    exact ⟨ts, fs, hgoes, fun hfs => absurd (hread hfs).1 nofun⟩
  | case3 c _ a d hd hlt as e he ih =>
    obtain ⟨ts, fs, hgoes, hread⟩ := (hitem.readsAt c hc).sound
    rw [hd] at hgoes hread
    obtain ⟨us, gs, hmore, hreadMore⟩ := ih (hgoes.eof ▸ hc)
    rw [he] at hmore hreadMore
    refine ⟨ts ++ us, fs ++ gs, hgoes.trans hmore, fun hnil => ⟨rfl, ?_⟩⟩
    obtain ⟨hfs, hgs⟩ := List.append_eq_nil_iff.mp hnil
    rw [Phrase.kstar_mul]
    exact .inr (Phrase.mul_mem (hread hfs).2 (hreadMore hgs).2)
  | case4 c _ a d hd hlt e he ih =>
    obtain ⟨ts, fs, hgoes, hread⟩ := (hitem.readsAt c hc).sound
    rw [hd] at hgoes
    obtain ⟨us, gs, hmore, hreadMore⟩ := ih (hgoes.eof ▸ hc)
    rw [he] at hmore hreadMore
    refine ⟨ts ++ us, fs ++ gs, hgoes.trans hmore, fun hnil => ?_⟩
    exact absurd (hreadMore (List.append_eq_nil_iff.mp hnil).2).1 nofun
  | case5 c _ a d hd hlt =>
    obtain ⟨ts, fs, hgoes, hread⟩ := (hitem.readsAt c hc).sound
    rw [hd] at hgoes hread
    exact ⟨ts, fs, hgoes, fun hfs => absurd (hitem.goes_on hempty hgoes (hread hfs).2) hlt⟩

/-- Items that stand in front of the closing mark are taken, and the mark. -/
theorem Reads.untilMark_complete {close : Mark} (hclose : .mark close ∉ s.heads)
    (hshuns : ∀ k ∈ s.shuns, k ∉ .mark close :: s.heads) (hc : c.eof.kind = .eof)
    {phrases : List (List Token)} (hphrases : ∀ ts ∈ phrases, ts ∈ l) {t : Token}
    (ht : t.kind = .mark close) {rest : List Token}
    (hrest : c.rest = phrases.flatten ++ (t :: rest)) :
    ∃ as d, Parse.untilMark close item c = (some as, d) ∧ c.Goes (phrases.flatten ++ [t]) [] d := by
  induction phrases generalizing c with
  | nil =>
    have hsees : c.sees (.mark close) = true := by
      rw [Cursor.sees_of_cons hrest, ht]
      exact beq_self_eq_true _
    rw [Parse.untilMark, if_pos hsees]
    exact ⟨[], _, rfl, Cursor.goes_advance hrest⟩
  | cons ts phrases ih =>
    rw [List.forall_mem_cons] at hphrases
    have hsplit : c.rest = ts ++ (phrases.flatten ++ (t :: rest)) := by simpa using hrest
    have hopen : c.sees (.mark close) ≠ true := by
      have hphrase : Shuns [.mark close] c.rest := by
        rw [hsplit]
        exact hitem.fits.shuns_append hphrases.1
          (fun k hk => List.mem_singleton.mp hk ▸ hclose) fun h => by simp [hempty] at h
      exact Cursor.not_sees hc hphrase List.mem_cons_self nofun
    obtain ⟨a, d, hrun, hgoes⟩ := (hitem.readsAt c hc).complete ts _ hphrases.1 hsplit
      (shuns_repeated hitem hempty hshuns hphrases.2 ht rest)
    obtain ⟨as, e, hrunMore, hgoesMore⟩ := ih (hgoes.eof ▸ hc) hphrases.2 (hgoes.rest_eq hsplit)
    rw [Parse.untilMark, if_neg hopen, hrun]
    simp only
    rw [if_pos (hitem.goes_on hempty hgoes hphrases.1), hrunMore]
    exact ⟨a :: as, e, rfl, by simpa using hgoes.trans hgoesMore⟩

theorem Reads.untilMark {close : Mark} (hclose : .mark close ∉ s.heads)
    (hshuns : ∀ k ∈ s.shuns, k ∉ .mark close :: s.heads) :
    Reads (untilMark close item) (l∗ * mark close) ⟨.mark close :: s.heads, false, []⟩ where
  fits := fits_repeated hitem hempty
  readsAt c hc := by
    refine ⟨hitem.untilMark_sound hempty close hc, ?_⟩
    rintro _ rest ⟨_, ⟨phrases, rfl, hphrases⟩, _, ⟨t, rfl, ht⟩, rfl⟩ hrest -
    exact hitem.untilMark_complete hempty hclose hshuns hc hphrases ht (by simpa using hrest)

/-- Members are read up to a fault, or to what is no member. -/
theorem Reads.members_sound (hc : c.eof.kind = .eof) :
    ∃ ts fs, c.Goes ts fs (members item c).2 ∧ (fs = [] → ts ∈ l∗) := by
  have hone : ∀ c : Cursor, c.eof.kind = .eof → ∃ ts fs, c.Goes ts fs
      (if (item c).1.isSome then (item c).2 else Cursor.skipMember c (item c).2) ∧
        (fs = [] → ts ∈ l) := by
    intro c hc
    obtain ⟨ts, fs, hgoes, hread⟩ := (hitem.readsAt c hc).sound
    split
    · exact ⟨ts, fs, hgoes, fun hfs => (hread hfs).2⟩
    · rename_i hnone
      obtain ⟨us, hus⟩ := hgoes.skipMember c
      exact ⟨us, fs, hus, fun hfs => absurd (hread hfs).1 hnone⟩
  fun_induction Parse.members item c with
  | case1 c => exact ⟨[], [], .refl c, fun _ => Language.nil_mem_kstar _⟩
  | case2 c _ r d hlt more ih =>
    obtain ⟨ts, fs, hgoes, hread⟩ : ∃ ts fs, c.Goes ts fs d ∧ (fs = [] → ts ∈ l) := by
      simpa [d, r] using hone c hc
    obtain ⟨us, gs, hmore, hreadMore⟩ := ih (hgoes.eof ▸ hc)
    refine ⟨ts ++ us, fs ++ gs, hgoes.trans hmore, fun hnil => ?_⟩
    obtain ⟨hfs, hgs⟩ := List.append_eq_nil_iff.mp hnil
    rw [← Language.one_add_self_mul_kstar_eq_kstar]
    exact .inr (Phrase.mul_mem (hread hfs) (hreadMore hgs))
  | case3 c _ r d hlt =>
    obtain ⟨ts, fs, hgoes, hread⟩ : ∃ ts fs, c.Goes ts fs d ∧ (fs = [] → ts ∈ l) := by
      simpa [d, r] using hone c hc
    exact ⟨ts, fs, hgoes, fun hfs => absurd (hitem.goes_on hempty hgoes (hread hfs)) hlt⟩

section Braces

variable (hbrace : .mark .rbrace ∉ s.heads) (hdefinition : ∀ k ∈ s.heads, k.isDefinition = false)
  (hshuns : ∀ k ∈ s.shuns, k ∉ .mark .rbrace :: s.heads)
include hbrace hdefinition hshuns

/-- Members that stand in front of a closing brace are taken. -/
theorem Reads.members_complete (hc : c.eof.kind = .eof) {phrases : List (List Token)}
    (hphrases : ∀ ts ∈ phrases, ts ∈ l) {t : Token} (ht : t.kind = .mark .rbrace)
    {rest : List Token} (hrest : c.rest = phrases.flatten ++ (t :: rest)) :
    c.Goes phrases.flatten [] (members item c).2 := by
  induction phrases generalizing c with
  | nil =>
    rw [members, if_pos (by rw [Cursor.sees_of_cons hrest, ht]; rfl)]
    exact .refl c
  | cons ts phrases ih =>
    rw [List.forall_mem_cons] at hphrases
    have hsplit : c.rest = ts ++ (phrases.flatten ++ (t :: rest)) := by simpa using hrest
    obtain ⟨u, us, rfl, hhead⟩ := hitem.fits.exists_head hempty hphrases.1
    have hopen : ¬ (c.sees (.mark .rbrace) || c.atEnd || c.peek.kind.isDefinition) = true := by
      rw [Cursor.sees_of_cons hsplit, Cursor.peek_of_cons hsplit, hdefinition _ hhead,
        Cursor.atEnd, hsplit]
      simp only [List.cons_append, List.isEmpty_cons, Bool.or_false, beq_iff_eq]
      exact fun h => hbrace (h ▸ hhead)
    obtain ⟨a, d, hrun, hgoes⟩ := (hitem.readsAt c hc).complete _ _ hphrases.1 hsplit
      (shuns_repeated hitem hempty hshuns hphrases.2 ht rest)
    have hmore := ih (hgoes.eof ▸ hc) hphrases.2 (hgoes.rest_eq hsplit)
    rw [members, if_neg hopen, hrun]
    simp only [Option.isSome_some, if_true]
    rw [if_pos (hitem.goes_on hempty hgoes hphrases.1)]
    exact hgoes.trans hmore

/-- The members of a body and its closing brace. -/
theorem Reads.body (opener : Token) :
    Reads (Grammar.body opener item) (l∗ * mark .rbrace) ⟨.mark .rbrace :: s.heads, false, []⟩ where
  fits := fits_repeated hitem hempty
  readsAt c hc := by
    constructor
    case sound =>
      obtain ⟨ts, fs, hgoes, hread⟩ := hitem.members_sound hempty hc
      unfold Grammar.body
      simp only
      split
      · rename_i hsees
        have hkind : (members item c).2.peek.kind = .mark .rbrace := eq_of_beq hsees
        have hclose := Cursor.goes_advance_of_peek (hgoes.eof ▸ hc) (by rw [hkind]; exact nofun)
        refine ⟨_, _, hgoes.trans hclose, fun hfs => ⟨rfl, ?_⟩⟩
        rw [List.append_nil] at hfs
        exact Phrase.mul_mem (hread hfs) (Phrase.singleton_mem_mark hkind)
      · exact ⟨_, _, hgoes.report _ _, fun hfs => by simp at hfs⟩
    case complete =>
      rintro _ rest ⟨_, ⟨phrases, rfl, hphrases⟩, _, ⟨t, rfl, ht⟩, rfl⟩ hrest -
      have hsplit : c.rest = phrases.flatten ++ (t :: rest) := by simpa using hrest
      have hgoes := hitem.members_complete hempty hbrace hdefinition hshuns hc hphrases ht hsplit
      have hclose := hgoes.rest_eq hsplit
      unfold Grammar.body
      simp only
      rw [if_pos (by rw [Cursor.sees_of_cons hclose, ht]; rfl)]
      exact ⟨_, _, rfl, hgoes.trans (Cursor.goes_advance hclose)⟩

end Braces

end Items

end Parse

end ThriftLayout
