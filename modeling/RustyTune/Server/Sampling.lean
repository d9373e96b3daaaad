import RustyTune.Server.Overviews

/-!
# What a sample keeps

* `Tracks`: of each column a bucket keeps a sample for each cell; `Represents`: what is kept stands
  for all samples. `keepOf_represents`, `represents_flatMap`: so it is of a bucket, and of buckets in
  a row.
* `Scan.Buckets`: a first scan as buckets; `Scan.Buckets.count_le`: how many there are.
* **`build_keeps`**: the columns of the first scan are rows of the file in their order, the first, the
  last and the extrema among them, within the points that were asked for.
-/

namespace RustyTune.Server.LogView

variable {F : Type} [F64 F]

/-! ## What a bucket keeps -/

def collect (g : List (Sample F)) : Option (Bucket F) :=
  g.foldl (fun b s => some (Bucket.grow b s)) none

theorem collect_concat (g : List (Sample F)) (s : Sample F) :
    collect (g ++ [s]) = some (Bucket.grow (collect g) s) := by
  rw [collect, List.foldl_append]
  rfl

/-- Of each column but the times a sample is kept for each cell that is wanted: `R u v` says that the
cell `u` can stand for the cell `v`. -/
structure Tracks (R : Option F → Option F → Prop) (kept : List (Option (Sample F)))
    (g : List (Sample F)) : Prop where
  head : ∀ s, kept[0]? ≠ some (some s)
  mem : ∀ (c : ℕ) (s : Sample F), kept[c]? = some (some s) →
    s ∈ g ∧ ∃ u, s.values[c]? = some u ∧ R u u
  best : ∀ c, 1 ≤ c → c < kept.length → ∀ s ∈ g, ∀ v, s.values[c]? = some v → R v v →
    ∃ s₀ u, kept[c]? = some (some s₀) ∧ s₀.values[c]? = some u ∧ R u v

/-- A sample takes the place of another when it is as good for all that the other stands for. -/
structure Decides (R : Option F → Option F → Prop) (g : List (Sample F))
    (better : ℕ → Option F → Option (Sample F) → Bool) : Prop where
  first : ∀ c v, better c v none = true ↔ R v v
  replaces : ∀ (c : ℕ) (s : Sample F) (u : Option F), s ∈ g → s.values[c]? = some u → R u u →
    ∀ v, better c v (some s) = true → R v v ∧ ∀ w, R u w → R v w
  stays : ∀ (c : ℕ) (s : Sample F) (u : Option F), s ∈ g → s.values[c]? = some u → R u u →
    ∀ v, better c v (some s) = false → R v v → R u v

omit [F64 F] in
theorem tracks_nil (R : Option F → Option F → Prop) (values : List (Option F)) :
    Tracks R (values.map fun _ => none) [] where
  head s h := by
    rw [List.getElem?_map] at h
    obtain ⟨v, -, hv⟩ := Option.map_eq_some_iff.mp h
    exact nomatch hv
  mem c s h := by
    rw [List.getElem?_map] at h
    obtain ⟨v, -, hv⟩ := Option.map_eq_some_iff.mp h
    exact nomatch hv
  best c _ _ s hs := nomatch hs

omit [F64 F] in
theorem Tracks.updated {R : Option F → Option F → Prop} {kept : List (Option (Sample F))}
    {g : List (Sample F)} (h : Tracks R kept g)
    {better : ℕ → Option F → Option (Sample F) → Bool} (hb : Decides R g better)
    (s : Sample F) : Tracks R (Bucket.updated kept s better) (g ++ [s]) := by
  have hget : ∀ c, (Bucket.updated kept s better)[c]? = kept[c]?.map fun old =>
      if 1 ≤ c && ((s.values[c]?).any fun v => better c v old) then some s else old :=
    fun c => List.getElem?_mapIdx
  -- the sample that a column keeps is the new one, or the old one
  have hcases : ∀ c old, kept[c]? = some old →
      (Bucket.updated kept s better)[c]? = some (some s) ∧ 1 ≤ c ∧
          (∃ v, s.values[c]? = some v ∧ better c v old = true) ∨
        (Bucket.updated kept s better)[c]? = some old ∧
          (1 ≤ c → ∀ v, s.values[c]? = some v → better c v old = false) := by
    intro c old hold
    rw [hget, hold, Option.map_some]
    by_cases hc : (1 ≤ c && ((s.values[c]?).any fun v => better c v old)) = true
    · rw [if_pos hc]
      rw [Bool.and_eq_true, decide_eq_true_eq, Option.any_eq_true] at hc
      exact .inl ⟨rfl, hc.1, hc.2⟩
    · rw [if_neg hc]
      refine .inr ⟨rfl, fun hle v hv => ?_⟩
      rw [hv] at hc
      simpa [hle] using hc
  refine ⟨fun s' h' => ?_, fun c s' h' => ?_, fun c hc hlt s' hs' v hv hR => ?_⟩
  · cases hold : kept[0]? with
    | none =>
      rw [hget, hold] at h'
      exact nomatch h'
    | some old =>
      rcases hcases 0 old hold with ⟨-, hle, -⟩ | ⟨hnew, -⟩
      · exact absurd hle (by omega)
      · rw [hnew] at h'
        exact h.head s' (hold.trans h')
  · cases hold : kept[c]? with
    | none =>
      rw [hget, hold] at h'
      exact nomatch h'
    | some old =>
      rcases hcases c old hold with ⟨hnew, -, v, hv, hbetter⟩ | ⟨hnew, -⟩
      · obtain rfl : s = s' := Option.some.inj (Option.some.inj (hnew.symm.trans h'))
        refine ⟨List.mem_append_right g List.mem_cons_self, v, hv, ?_⟩
        cases old with
        | none => exact (hb.first c v).mp hbetter
        | some s₀ =>
          obtain ⟨hs₀, u, hu, huu⟩ := h.mem c s₀ hold
          exact (hb.replaces c s₀ u hs₀ hu huu v hbetter).1
      · rw [hnew] at h'
        obtain ⟨hs', hu⟩ := h.mem c s' (hold.trans h')
        exact ⟨List.mem_append_left _ hs', hu⟩
  · have hlt : c < kept.length := by
      rwa [Bucket.updated, List.length_mapIdx] at hlt
    have hold : kept[c]? = some kept[c] := List.getElem?_eq_getElem hlt
    rcases hcases c _ hold with ⟨hnew, -, u, hu, hbetter⟩ | ⟨hnew, hno⟩
    · refine ⟨s, u, hnew, hu, ?_⟩
      cases hkept : kept[c] with
      | none =>
        -- nothing was kept, so nothing was wanted before
        rw [hkept] at hold hbetter
        rcases List.mem_append.mp hs' with hs' | hs'
        · obtain ⟨s₀, u₀, hs₀, -⟩ := h.best c hc hlt s' hs' v hv hR
          exact nomatch hold.symm.trans hs₀
        · obtain rfl := List.mem_singleton.mp hs'
          obtain rfl := Option.some.inj (hu.symm.trans hv)
          exact hR
      | some s₀ =>
        rw [hkept] at hold hbetter
        obtain ⟨hs₀, u₀, hu₀, huu⟩ := h.mem c s₀ hold
        obtain ⟨hself, hmono⟩ := hb.replaces c s₀ u₀ hs₀ hu₀ huu u hbetter
        rcases List.mem_append.mp hs' with hs' | hs'
        · obtain ⟨s₁, u₁, hs₁, hu₁, hR₁⟩ := h.best c hc hlt s' hs' v hv hR
          obtain rfl := Option.some.inj (Option.some.inj (hold.symm.trans hs₁))
          obtain rfl := Option.some.inj (hu₀.symm.trans hu₁)
          exact hmono v hR₁
        · obtain rfl := List.mem_singleton.mp hs'
          obtain rfl := Option.some.inj (hu.symm.trans hv)
          exact hself
    · rcases List.mem_append.mp hs' with hs' | hs'
      · obtain ⟨s₁, u₁, hs₁, hu₁, hR₁⟩ := h.best c hc hlt s' hs' v hv hR
        exact ⟨s₁, u₁, by rw [hnew, ← hold, hs₁], hu₁, hR₁⟩
      · obtain rfl := List.mem_singleton.mp hs'
        have hno := hno hc v hv
        cases hkept : kept[c] with
        | none =>
          rw [hkept] at hno
          exact absurd ((hb.first c v).mpr hR) (by rw [hno]; exact Bool.false_ne_true)
        | some s₀ =>
          rw [hkept] at hno hold hnew
          obtain ⟨hs₀, u₀, hu₀, huu⟩ := h.mem c s₀ hold
          exact ⟨s₀, u₀, hnew, hu₀, hb.stays c s₀ u₀ hs₀ hu₀ huu v hno hR⟩

/-- A number that is not above another. -/
def StandsLow (u v : Option F) : Prop := ∃ x y, u = some x ∧ v = some y ∧ F64.lt y x = false

/-- A number that is not below another. -/
def StandsHigh (u v : Option F) : Prop := ∃ x y, u = some x ∧ v = some y ∧ F64.lt x y = false

def StandsMissing (u v : Option F) : Prop := u = none ∧ v = none

/-- A sample of so many columns whose numbers are finite. -/
structure Sample.Proper (n : ℕ) (s : Sample F) : Prop where
  length : s.values.length = n
  finite : ∀ x, some x ∈ s.values → F64.isFinite x = true

section Decides

variable [LawfulF64 F] {n : ℕ} {g : List (Sample F)}

theorem lt_irrefl (x : F) : F64.lt x x = false :=
  Bool.eq_false_iff.mpr fun h => absurd h (by rw [LawfulF64.lt_asymm x x h]; exact Bool.false_ne_true)

theorem decides_low (hg : ∀ s ∈ g, s.Proper n) :
    Decides StandsLow g fun c v old => v.any fun v => Bucket.improves F64.lt c v old where
  first c v := by
    cases v with
    | none => exact iff_of_false Bool.false_ne_true fun ⟨x, y, hx, _⟩ => nomatch hx
    | some x => exact iff_of_true rfl ⟨x, x, rfl, rfl, lt_irrefl x⟩
  replaces := by
    rintro c s u hs hu ⟨x, -, rfl, -, -⟩ v hv
    have hx := (hg s hs).finite x (List.mem_of_getElem? hu)
    cases v with
    | none => exact absurd hv Bool.false_ne_true
    | some y =>
      rw [Option.any_some, Bucket.improves, hu] at hv
      refine ⟨⟨y, y, rfl, rfl, lt_irrefl y⟩, ?_⟩
      rintro w ⟨x', z, hx', rfl, hz⟩
      obtain rfl := Option.some.inj hx'
      refine ⟨y, z, rfl, rfl, Bool.eq_false_iff.mpr fun hlt => ?_⟩
      rcases LawfulF64.lt_cotrans z x y hx hlt with h | h
      · exact absurd h (by rw [hz]; exact Bool.false_ne_true)
      · exact absurd h (by rw [LawfulF64.lt_asymm y x hv]; exact Bool.false_ne_true)
  stays := by
    rintro c s u hs hu ⟨x, -, rfl, -, -⟩ v hv ⟨y, -, rfl, -, -⟩
    rw [Option.any_some, Bucket.improves, hu] at hv
    exact ⟨x, y, rfl, rfl, hv⟩

theorem decides_high (hg : ∀ s ∈ g, s.Proper n) : Decides StandsHigh g fun c v old =>
    v.any fun v => Bucket.improves (fun v u => F64.lt u v) c v old where
  first c v := by
    cases v with
    | none => exact iff_of_false Bool.false_ne_true fun ⟨x, y, hx, _⟩ => nomatch hx
    | some x => exact iff_of_true rfl ⟨x, x, rfl, rfl, lt_irrefl x⟩
  replaces := by
    rintro c s u hs hu ⟨x, -, rfl, -, -⟩ v hv
    have hx := (hg s hs).finite x (List.mem_of_getElem? hu)
    cases v with
    | none => exact absurd hv Bool.false_ne_true
    | some y =>
      rw [Option.any_some, Bucket.improves, hu] at hv
      refine ⟨⟨y, y, rfl, rfl, lt_irrefl y⟩, ?_⟩
      rintro w ⟨x', z, hx', rfl, hz⟩
      obtain rfl := Option.some.inj hx'
      refine ⟨y, z, rfl, rfl, Bool.eq_false_iff.mpr fun hlt => ?_⟩
      rcases LawfulF64.lt_cotrans y x z hx hlt with h | h
      · exact absurd h (by rw [LawfulF64.lt_asymm x y hv]; exact Bool.false_ne_true)
      · exact absurd h (by rw [hz]; exact Bool.false_ne_true)
  stays := by
    rintro c s u hs hu ⟨x, -, rfl, -, -⟩ v hv ⟨y, -, rfl, -, -⟩
    rw [Option.any_some, Bucket.improves, hu] at hv
    exact ⟨x, y, rfl, rfl, hv⟩

omit [F64 F] [LawfulF64 F] in
theorem decides_missing (g : List (Sample F)) :
    Decides StandsMissing g fun _ v old => v.isNone && old.isNone where
  first c v := by cases v <;> simp [StandsMissing]
  replaces c s u _ _ _ v hv := by simp at hv
  stays c s u _ _ hu v _ hv := ⟨hu.1, hv.1⟩

end Decides

/-- What a bucket keeps of some samples. -/
structure Bucket.Sums (n : ℕ) (g : List (Sample F)) (b : Bucket F) : Prop where
  first : g.head? = some b.first
  last : g.getLast? = some b.last
  low : Tracks StandsLow b.low g
  high : Tracks StandsHigh b.high g
  gaps : Tracks StandsMissing b.gaps g
  lengths : b.low.length = n ∧ b.high.length = n ∧ b.gaps.length = n

theorem Bucket.Sums.add [LawfulF64 F] {n : ℕ} {g : List (Sample F)} {b : Bucket F}
    (h : b.Sums n g) (hg : ∀ s ∈ g, s.Proper n) (s : Sample F) : (b.add s).Sums n (g ++ [s]) where
  first := by rw [List.head?_append, h.first]; rfl
  last := List.getLast?_concat
  low := h.low.updated (decides_low hg) s
  high := h.high.updated (decides_high hg) s
  gaps := h.gaps.updated (decides_missing g) s
  lengths := by
    simp only [Bucket.add, Bucket.updated, List.length_mapIdx]
    exact h.lengths

theorem sums_new [LawfulF64 F] {n : ℕ} {s : Sample F} (hs : s.Proper n) :
    (Bucket.new s).Sums n [s] where
  first := rfl
  last := rfl
  low := (tracks_nil _ s.values).updated (decides_low (n := n) fun _ h => nomatch h) s
  high := (tracks_nil _ s.values).updated (decides_high (n := n) fun _ h => nomatch h) s
  gaps := (tracks_nil _ s.values).updated (decides_missing []) s
  lengths := by
    simp only [Bucket.new, Bucket.add, Bucket.updated, List.length_mapIdx, List.length_map]
    exact ⟨hs.length, hs.length, hs.length⟩

theorem sums_collect [LawfulF64 F] {n : ℕ} {g : List (Sample F)} (hne : g ≠ [])
    (hg : ∀ s ∈ g, s.Proper n) : ∃ b, collect g = some b ∧ b.Sums n g := by
  induction g using List.reverseRecOn with
  | nil => exact absurd rfl hne
  | append_singleton g s ih =>
    have hs : s.Proper n := hg s (List.mem_append_right g List.mem_cons_self)
    have hg' : ∀ s ∈ g, s.Proper n := fun s' hs' => hg s' (List.mem_append_left _ hs')
    rw [collect_concat]
    by_cases hnil : g = []
    · subst hnil
      exact ⟨_, rfl, sums_new hs⟩
    · obtain ⟨b, hb, hsums⟩ := ih hnil hg'
      rw [hb]
      exact ⟨_, rfl, hsums.add hg' s⟩

/-! ## Kept samples -/

def Sample.Before (s s' : Sample F) : Prop := s.row < s'.row

omit [F64 F] in
theorem exists_mem_dedupByRow {l : List (Sample F)} {x : Sample F} (h : x ∈ l) :
    ∃ y ∈ dedupByRow l, y.row = x.row := by
  induction l with
  | nil => exact nomatch h
  | cons s l ih =>
    rw [dedupByRow]
    cases hl : dedupByRow l with
    | nil =>
      rcases List.mem_cons.mp h with rfl | h
      · exact ⟨x, List.mem_cons_self, rfl⟩
      · obtain ⟨y, hy, -⟩ := ih h
        rw [hl] at hy
        exact nomatch hy
    | cons s' rest =>
      dsimp only
      rw [hl] at ih
      by_cases heq : s.row = s'.row
      · rw [if_pos heq]
        rcases List.mem_cons.mp h with rfl | h
        · exact ⟨x, List.mem_cons_self, rfl⟩
        · obtain ⟨y, hy, hrow⟩ := ih h
          rcases List.mem_cons.mp hy with rfl | hy
          · exact ⟨s, List.mem_cons_self, heq.trans hrow⟩
          · exact ⟨y, List.mem_cons_of_mem _ hy, hrow⟩
      · rw [if_neg heq]
        rcases List.mem_cons.mp h with rfl | h
        · exact ⟨x, List.mem_cons_self, rfl⟩
        · obtain ⟨y, hy, hrow⟩ := ih h
          exact ⟨y, List.mem_cons_of_mem _ hy, hrow⟩

omit [F64 F] in
theorem length_dedupByRow_le (l : List (Sample F)) : (dedupByRow l).length ≤ l.length := by
  induction l with
  | nil => exact le_rfl
  | cons s l ih =>
    rw [dedupByRow]
    cases hl : dedupByRow l with
    | nil => simp
    | cons s' rest =>
      rw [hl] at ih
      dsimp only
      split_ifs
      · exact Nat.succ_le_succ (Nat.le_of_succ_le ih)
      · exact Nat.succ_le_succ ih

omit [F64 F] in
theorem pairwise_dedupByRow {l : List (Sample F)} (h : l.Pairwise fun s s' => s.row ≤ s'.row) :
    (dedupByRow l).Pairwise Sample.Before := by
  induction l with
  | nil => exact List.Pairwise.nil
  | cons s l ih =>
    obtain ⟨hs, hl⟩ := List.pairwise_cons.mp h
    have ih := ih hl
    have hmem : ∀ x ∈ dedupByRow l, s.row ≤ x.row := fun x hx => hs x (mem_dedupByRow hx)
    rw [dedupByRow]
    cases hrest : dedupByRow l with
    | nil => exact List.pairwise_singleton _ _
    | cons s' rest =>
      rw [hrest] at ih hmem
      obtain ⟨hs', hpair⟩ := List.pairwise_cons.mp ih
      have hle := hmem s' List.mem_cons_self
      dsimp only
      by_cases heq : s.row = s'.row
      · rw [if_pos heq]
        refine List.pairwise_cons.mpr ⟨fun x hx => ?_, hpair⟩
        rw [Sample.Before, heq]
        exact hs' x hx
      · rw [if_neg heq]
        refine List.pairwise_cons.mpr ⟨fun x hx => ?_, ih⟩
        have hlt : s.row < s'.row := by omega
        rcases List.mem_cons.mp hx with rfl | hx
        · exact hlt
        · exact hlt.trans (hs' x hx)

omit [F64 F] in
theorem Bucket.pairwise_keep (b : Bucket F) : b.keep.Pairwise Sample.Before := by
  have : Std.Total fun s s' : Sample F => s.row ≤ s'.row := ⟨fun s s' => Nat.le_total s.row s'.row⟩
  have : IsTrans (Sample F) fun s s' => s.row ≤ s'.row := ⟨fun _ _ _ => Nat.le_trans⟩
  exact pairwise_dedupByRow (List.pairwise_insertionSort _ b.samples)

/-- For each cell that is wanted a sample is kept. -/
def Covers (R : Option F → Option F → Prop) (kept g : List (Sample F)) : Prop :=
  ∀ c, 1 ≤ c → ∀ s ∈ g, ∀ v, s.values[c]? = some v → R v v →
    ∃ s₀ ∈ kept, ∃ u, s₀.values[c]? = some u ∧ R u v

/-- What is kept of some samples. -/
structure Represents (kept g : List (Sample F)) : Prop where
  rows : kept.Pairwise Sample.Before
  mem : ∀ s ∈ kept, s ∈ g
  first : ∀ s, g.head? = some s → s ∈ kept
  last : ∀ s, g.getLast? = some s → s ∈ kept
  low : Covers StandsLow kept g
  high : Covers StandsHigh kept g
  missing : Covers StandsMissing kept g

/-- What is kept of a bucket of samples. -/
def keepOf (g : List (Sample F)) : List (Sample F) := (collect g).elim [] Bucket.keep

omit [F64 F] in
theorem eq_of_row {g : List (Sample F)} (h : g.Pairwise Sample.Before) {x y : Sample F}
    (hx : x ∈ g) (hy : y ∈ g) (hrow : x.row = y.row) : x = y := by
  have hnodup : (g.map Sample.row).Nodup := List.pairwise_map.mpr (h.imp Nat.ne_of_lt)
  exact List.inj_on_of_nodup_map hnodup hx hy hrow

omit [F64 F] in
theorem Tracks.covers {R : Option F → Option F → Prop} {kept : List (Option (Sample F))}
    {g keep : List (Sample F)} {n : ℕ} (h : Tracks R kept g) (hlength : kept.length = n)
    (hg : ∀ s ∈ g, s.values.length = n) (hkeep : ∀ s, some s ∈ kept → s ∈ keep) :
    Covers R keep g := by
  intro c hc s hs v hv hR
  have hlt : c < kept.length := by
    rw [hlength, ← hg s hs]
    exact (List.getElem?_eq_some_iff.mp hv).1
  obtain ⟨s₀, u, hs₀, hu, hR⟩ := h.best c hc hlt s hs v hv hR
  exact ⟨s₀, hkeep s₀ (List.mem_of_getElem? hs₀), u, hu, hR⟩

omit [F64 F] in
theorem Tracks.length_le {R : Option F → Option F → Prop} {kept : List (Option (Sample F))}
    {g : List (Sample F)} (h : Tracks R kept g) : kept.reduceOption.length ≤ kept.length - 1 := by
  cases kept with
  | nil => exact le_rfl
  | cons old kept =>
    cases old with
    | none => simpa using List.reduceOption_length_le kept
    | some s => exact absurd rfl (h.head s)

theorem keepOf_represents [LawfulF64 F] {n : ℕ} {g : List (Sample F)}
    (hg : ∀ s ∈ g, s.Proper n) (hrows : g.Pairwise Sample.Before) : Represents (keepOf g) g := by
  by_cases hne : g = []
  · subst hne
    exact
      { rows := List.Pairwise.nil
        mem := fun _ h => nomatch h
        first := fun _ h => nomatch h
        last := fun _ h => nomatch h
        low := fun _ _ _ h => nomatch h
        high := fun _ _ _ h => nomatch h
        missing := fun _ _ _ h => nomatch h }
  · obtain ⟨b, hb, hsums⟩ := sums_collect hne hg
    have hkeep : keepOf g = b.keep := by rw [keepOf, hb]; rfl
    have hlow : ∀ s, some s ∈ b.low → s ∈ g := fun s hs => by
      obtain ⟨c, hc, hs⟩ := List.getElem_of_mem hs
      exact (hsums.low.mem c s (List.getElem?_eq_some_iff.mpr ⟨hc, hs⟩)).1
    have hhigh : ∀ s, some s ∈ b.high → s ∈ g := fun s hs => by
      obtain ⟨c, hc, hs⟩ := List.getElem_of_mem hs
      exact (hsums.high.mem c s (List.getElem?_eq_some_iff.mpr ⟨hc, hs⟩)).1
    have hgaps : ∀ s, some s ∈ b.gaps → s ∈ g := fun s hs => by
      obtain ⟨c, hc, hs⟩ := List.getElem_of_mem hs
      exact (hsums.gaps.mem c s (List.getElem?_eq_some_iff.mpr ⟨hc, hs⟩)).1
    have hsamples : ∀ s ∈ b.samples, s ∈ g := by
      intro s hs
      rcases Bucket.mem_samples.mp hs with rfl | rfl | hs | hs | hs
      · exact List.mem_of_head? hsums.first
      · exact List.mem_of_getLast? hsums.last
      · exact hlow s hs
      · exact hhigh s hs
      · exact hgaps s hs
    -- rows name samples, so that none is lost when rows are made unique
    have hkept : ∀ s ∈ b.samples, s ∈ b.keep := by
      intro s hs
      have hsorted : s ∈ b.samples.insertionSort fun s s' => s.row ≤ s'.row :=
        (List.mem_insertionSort _).mpr hs
      obtain ⟨y, hy, hrow⟩ := exists_mem_dedupByRow hsorted
      have heq : y = s :=
        eq_of_row hrows (hsamples y (Bucket.mem_keep hy)) (hsamples s hs) hrow
      exact heq ▸ hy
    have hlengths : ∀ s ∈ g, s.values.length = n := fun s hs => (hg s hs).length
    rw [hkeep]
    exact
      { rows := b.pairwise_keep
        mem := fun s hs => hsamples s (Bucket.mem_keep hs)
        first := fun s hs => by
          obtain rfl := Option.some.inj (hsums.first.symm.trans hs)
          exact hkept _ (Bucket.mem_samples.mpr (.inl rfl))
        last := fun s hs => by
          obtain rfl := Option.some.inj (hsums.last.symm.trans hs)
          exact hkept _ (Bucket.mem_samples.mpr (.inr (.inl rfl)))
        low := hsums.low.covers hsums.lengths.1 hlengths fun s hs =>
          hkept s (Bucket.mem_samples.mpr (.inr (.inr (.inl hs))))
        high := hsums.high.covers hsums.lengths.2.1 hlengths fun s hs =>
          hkept s (Bucket.mem_samples.mpr (.inr (.inr (.inr (.inl hs)))))
        missing := hsums.gaps.covers hsums.lengths.2.2 hlengths fun s hs =>
          hkept s (Bucket.mem_samples.mpr (.inr (.inr (.inr (.inr hs))))) }

/-- Two ends, and three samples for each column but the times. -/
theorem length_keepOf_le [LawfulF64 F] {n : ℕ} {g : List (Sample F)}
    (hg : ∀ s ∈ g, s.Proper n) : (keepOf g).length ≤ 2 + 3 * (n - 1) := by
  by_cases hne : g = []
  · subst hne
    exact Nat.zero_le _
  · obtain ⟨b, hb, hsums⟩ := sums_collect hne hg
    obtain ⟨hl, hh, hm⟩ := hsums.lengths
    have hlow := hsums.low.length_le
    have hhigh := hsums.high.length_le
    have hgaps := hsums.gaps.length_le
    have hle := length_dedupByRow_le (b.samples.insertionSort fun s s' => s.row ≤ s'.row)
    have hcount : b.samples.length = 2 + (b.low.reduceOption.length +
        b.high.reduceOption.length + b.gaps.reduceOption.length) := by
      rw [Bucket.samples, List.length_cons, List.length_cons, List.length_append,
        List.length_append]
      omega
    rw [List.length_insertionSort] at hle
    rw [keepOf, hb, Option.elim_some, Bucket.keep]
    omega

omit [F64 F] in
theorem Covers.append {R : Option F → Option F → Prop} {k₁ g₁ k₂ g₂ : List (Sample F)}
    (h₁ : Covers R k₁ g₁) (h₂ : Covers R k₂ g₂) : Covers R (k₁ ++ k₂) (g₁ ++ g₂) := by
  intro c hc s hs v hv hR
  rcases List.mem_append.mp hs with hs | hs
  · obtain ⟨s₀, hs₀, hu⟩ := h₁ c hc s hs v hv hR
    exact ⟨s₀, List.mem_append_left _ hs₀, hu⟩
  · obtain ⟨s₀, hs₀, hu⟩ := h₂ c hc s hs v hv hR
    exact ⟨s₀, List.mem_append_right _ hs₀, hu⟩

theorem Represents.append {k₁ g₁ k₂ g₂ : List (Sample F)} (h₁ : Represents k₁ g₁)
    (h₂ : Represents k₂ g₂) (hrows : (g₁ ++ g₂).Pairwise Sample.Before) :
    Represents (k₁ ++ k₂) (g₁ ++ g₂) where
  rows := by
    refine List.pairwise_append.mpr ⟨h₁.rows, h₂.rows, fun s hs s' hs' => ?_⟩
    exact (List.pairwise_append.mp hrows).2.2 s (h₁.mem s hs) s' (h₂.mem s' hs')
  mem s hs := by
    rcases List.mem_append.mp hs with hs | hs
    · exact List.mem_append_left _ (h₁.mem s hs)
    · exact List.mem_append_right _ (h₂.mem s hs)
  first s hs := by
    rw [List.head?_append, Option.or_eq_some_iff] at hs
    rcases hs with hs | ⟨-, hs⟩
    · exact List.mem_append_left _ (h₁.first s hs)
    · exact List.mem_append_right _ (h₂.first s hs)
  last s hs := by
    rw [List.getLast?_append, Option.or_eq_some_iff] at hs
    rcases hs with hs | ⟨-, hs⟩
    · exact List.mem_append_right _ (h₂.last s hs)
    · exact List.mem_append_left _ (h₁.last s hs)
  low := h₁.low.append h₂.low
  high := h₁.high.append h₂.high
  missing := h₁.missing.append h₂.missing

/-- What is kept of buckets in a row stands for all their samples. -/
theorem represents_flatMap [LawfulF64 F] {n : ℕ} (groups : List (List (Sample F)))
    (hg : ∀ s ∈ groups.flatten, s.Proper n) (hrows : groups.flatten.Pairwise Sample.Before) :
    Represents (groups.flatMap keepOf) groups.flatten := by
  induction groups with
  | nil => exact keepOf_represents (n := n) (g := []) (fun _ h => nomatch h) List.Pairwise.nil
  | cons g groups ih =>
    rw [List.flatten_cons] at hg hrows ⊢
    rw [List.flatMap_cons]
    have hparts := List.pairwise_append.mp hrows
    exact (keepOf_represents (fun s hs => hg s (List.mem_append_left _ hs)) hparts.1).append
      (ih (fun s hs => hg s (List.mem_append_right _ hs)) hparts.2.1) hrows

theorem length_flatMap_keepOf_le [LawfulF64 F] {n : ℕ} (groups : List (List (Sample F)))
    (hg : ∀ s ∈ groups.flatten, s.Proper n) :
    (groups.flatMap keepOf).length ≤ groups.length * (2 + 3 * (n - 1)) := by
  induction groups with
  | nil => exact Nat.zero_le _
  | cons g groups ih =>
    rw [List.flatten_cons] at hg
    rw [List.flatMap_cons, List.length_append, List.length_cons, Nat.succ_mul]
    have hfirst := length_keepOf_le fun s hs => hg s (List.mem_append_left _ hs)
    have hrest := ih fun s hs => hg s (List.mem_append_right _ hs)
    omega

/-! ## The buckets of the first scan -/

/-- The cells of a line that is a row with a time. -/
def rowOf (selected : List ℕ) (line : List UInt8) : Option (List (Option F)) :=
  match decodeLine line with
  | .ok text =>
    if isSkipped (trimLineEnd text) then none
    else (rowTime (trimLineEnd text)).map (parseColumns (trimLineEnd text) selected)
  | .error _ => none

/-- The rows of a file that have a time. -/
def File.rows (f : File) (selected : List ℕ) : List (List (Option F)) :=
  ((Reader.readLines f.bytes).drop 3).filterMap (rowOf selected)

def sampleRows (rows : List (List (Option F))) : List (Sample F) :=
  rows.zipIdx.map fun r => ⟨r.2, r.1⟩

omit [F64 F] in
theorem sampleRows_concat (rows : List (List (Option F))) (row : List (Option F)) :
    sampleRows (rows ++ [row]) = sampleRows rows ++ [⟨rows.length, row⟩] := by
  rw [sampleRows, List.zipIdx_append, List.map_append, Nat.zero_add]
  rfl

def pushAll (kept : List (Sample F)) (columns : List (List (Option F))) : List (List (Option F)) :=
  kept.foldl (fun columns s => pushRow columns s.values) columns

theorem finishBucket_collect (g : List (Sample F)) (columns : List (List (Option F))) :
    finishBucket (collect g) columns = pushAll (keepOf g) columns := by
  rw [keepOf]
  cases collect g <;> rfl

/-- A scan as buckets: those that are finished, and the one that is filled. -/
structure Scan.Buckets (selected : List ℕ) (dataStart bucketBytes : ℕ)
    (rows : List (List (Option F))) (groups : List (List (Sample F))) (current : List (Sample F))
    (s : Scan F) : Prop where
  entries : s.entries.length = rows.length
  offsets : ∀ e ∈ s.entries, e.1 < s.position
  samples : groups.flatten ++ current = sampleRows rows
  overview : s.overview = pushAll (groups.flatMap keepOf) (List.replicate selected.length [])
  bucket : s.bucket = collect current
  count : groups.length ≤ s.bucketId
  place : s.bucketId = 0 ∨ ∃ e ∈ s.entries, s.bucketId = (e.1 - dataStart) / bucketBytes

namespace Scan.Buckets

variable {selected : List ℕ} {dataStart bucketBytes : ℕ} {rows : List (List (Option F))}
  {groups : List (List (Sample F))} {current : List (Sample F)} {s s' : Scan F}

/-- Offsets only grow, and so do the numbers of the buckets. -/
theorem bucketId_le (h : s.Buckets selected dataStart bucketBytes rows groups current) :
    s.bucketId ≤ (s.position - dataStart) / bucketBytes := by
  rcases h.place with h₀ | ⟨e, he, hid⟩
  · rw [h₀]
    exact Nat.zero_le _
  · rw [hid]
    exact Nat.div_le_div_right (Nat.sub_le_sub_right (Nat.le_of_lt (h.offsets e he)) _)

theorem add (h : s.Buckets selected dataStart bucketBytes rows groups current) {t : F}
    {row : List Char} {position rows' : ℕ} (hposition : s.position < position) :
    ∃ groups' current', (Scan.add selected dataStart bucketBytes
        { s with position, rows := rows' } s.position t row).Buckets selected dataStart bucketBytes
          (rows ++ [parseColumns row selected t]) groups' current' := by
  have hentries : (s.entries ++ [(s.position, t)]).length =
      (rows ++ [parseColumns row selected t]).length := by
    rw [List.length_append, List.length_append, h.entries]
    rfl
  have hoffsets : ∀ e ∈ s.entries ++ [(s.position, t)], e.1 < position := by
    intro e he
    rcases List.mem_append.mp he with he | he
    · exact (h.offsets e he).trans hposition
    · exact List.mem_singleton.mp he ▸ hposition
  have hnumber : (s.entries ++ [(s.position, t)]).length - 1 = rows.length := by
    rw [List.length_append, h.entries, List.length_singleton, Nat.add_sub_cancel]
  by_cases hid : (s.position - dataStart) / bucketBytes = s.bucketId
  · -- the row joins the bucket
    refine ⟨groups, current ++ [⟨rows.length, parseColumns row selected t⟩], ?_⟩
    rw [Scan.add, Scan.enter, if_pos hid]
    exact
      { entries := hentries
        offsets := hoffsets
        samples := by rw [sampleRows_concat, ← h.samples, List.append_assoc]
        overview := h.overview
        bucket := by
          dsimp only
          rw [collect_concat, h.bucket, hnumber]
        count := h.count
        place := by
          refine h.place.imp_right ?_
          rintro ⟨e, he, hid⟩
          exact ⟨e, List.mem_append_left _ he, hid⟩ }
  · -- the bucket is finished, and the row is the first of another
    have hlt : s.bucketId < (s.position - dataStart) / bucketBytes :=
      Nat.lt_of_le_of_ne h.bucketId_le (Ne.symm hid)
    refine ⟨groups ++ [current], [⟨rows.length, parseColumns row selected t⟩], ?_⟩
    rw [Scan.add, Scan.enter, if_neg hid]
    exact
      { entries := hentries
        offsets := hoffsets
        samples := by
          rw [sampleRows_concat, ← h.samples, List.flatten_append, List.flatten_singleton]
        overview := by
          dsimp only
          rw [h.bucket, finishBucket_collect, h.overview, List.flatMap_append,
            List.flatMap_singleton, pushAll, pushAll, pushAll, List.foldl_append]
        bucket := by
          dsimp only
          rw [hnumber]
          rfl
        count := by
          rw [List.length_append, List.length_singleton]
          exact Nat.succ_le_of_lt (Nat.lt_of_le_of_lt h.count hlt)
        place := .inr ⟨(s.position, t), List.mem_append_right _ List.mem_cons_self, rfl⟩ }

theorem next (h : s.Buckets selected dataStart bucketBytes rows groups current)
    {line : List UInt8} (hline : line ≠ [])
    (hs : Scan.line selected dataStart bucketBytes s line = .ok s') :
    ∃ groups' current', s'.Buckets selected dataStart bucketBytes
      (rows ++ (rowOf selected line).toList) groups' current' := by
  have hlt : s.position < s.position + line.length :=
    Nat.lt_add_of_pos_right (List.length_pos_of_ne_nil hline)
  have hkeep : ∀ rows', ({ s with position := s.position + line.length, rows := rows' } :
      Scan F).Buckets selected dataStart bucketBytes rows groups current := fun rows' =>
    { entries := h.entries
      offsets := fun e he => (h.offsets e he).trans hlt
      samples := h.samples
      overview := h.overview
      bucket := h.bucket
      count := h.count
      place := h.place }
  obtain ⟨text, htext, hs⟩ := Scan.line_cases hs
  rw [rowOf, htext]
  dsimp only
  rcases hs with ⟨hskip, rfl⟩ | ⟨hskip, ht, rfl⟩ | ⟨hskip, t, ht, rfl⟩
  · rw [if_pos hskip, Option.toList_none, List.append_nil]
    exact ⟨groups, current, hkeep s.rows⟩
  · rw [if_neg hskip, ht, Option.map_none, Option.toList_none, List.append_nil]
    exact ⟨groups, current, hkeep (s.rows + 1)⟩
  · rw [if_neg hskip, ht]
    exact h.add hlt

theorem run {lines : List (List UInt8)}
    (h : s.Buckets selected dataStart bucketBytes rows groups current)
    (hlines : ∀ line ∈ lines, line ≠ [])
    (hs : lines.foldlM (Scan.line selected dataStart bucketBytes) s = .ok s') :
    ∃ groups' current', s'.Buckets selected dataStart bucketBytes
      (rows ++ lines.filterMap (rowOf selected)) groups' current' := by
  induction lines generalizing s rows groups current with
  | nil =>
    obtain rfl := Except.ok.inj hs
    rw [List.filterMap_nil, List.append_nil]
    exact ⟨groups, current, h⟩
  | cons line lines ih =>
    obtain ⟨s₁, hs₁, hs⟩ := except_bind_eq_ok.mp hs
    obtain ⟨groups₁, current₁, h₁⟩ := h.next (hlines line List.mem_cons_self) hs₁
    have hrest := ih h₁ (fun l hl => hlines l (List.mem_cons_of_mem _ hl)) hs
    rw [List.append_assoc] at hrest
    cases hrow : rowOf (F := F) selected line with
    | none => rwa [hrow, Option.toList_none, List.nil_append,
        ← List.filterMap_cons_none hrow] at hrest
    | some row => rwa [hrow, Option.toList_some, List.singleton_append,
        ← List.filterMap_cons_some hrow] at hrest

end Scan.Buckets

/-! ## Rows and columns -/

theorem length_parseCells (cells : List (List Char)) (previous : ℕ) (selected : List ℕ) :
    (parseCells (F := F) cells previous selected).length = selected.length := by
  induction selected generalizing cells previous with
  | nil => rfl
  | cons c selected ih => exact congrArg (· + 1) (ih _ c)

theorem length_parseColumns (row : List Char) {selected : List ℕ} (h : selected ≠ []) (t : F) :
    (parseColumns row selected t).length = selected.length := by
  rw [parseColumns, List.length_cons, length_parseCells, List.length_drop]
  have := List.length_pos_of_ne_nil h
  omega

theorem isFinite_of_mem_cellValues {row : List Char} {x : F} (h : x ∈ cellValues row) :
    F64.isFinite x = true := by
  obtain ⟨cell, -, hx⟩ := List.mem_filterMap.mp h
  exact (Option.filter_eq_some_iff.mp hx).2

theorem rowOf_proper {selected : List ℕ} (h : selected ≠ []) {line : List UInt8}
    {row : List (Option F)} (hrow : rowOf selected line = some row) (k : ℕ) :
    Sample.Proper selected.length ⟨k, row⟩ := by
  rw [rowOf] at hrow
  cases htext : decodeLine line with
  | error e =>
    rw [htext] at hrow
    exact nomatch hrow
  | ok text =>
    rw [htext] at hrow
    dsimp only at hrow
    split_ifs at hrow
    obtain ⟨t, ht, rfl⟩ := Option.map_eq_some_iff.mp hrow
    exact ⟨length_parseColumns _ h t, fun x hx =>
      isFinite_of_mem_cellValues (mem_parseColumns ht hx)⟩

theorem length_rows (f : File) (selected : List ℕ) :
    (f.rows (F := F) selected).length = f.timedRows F := by
  rw [File.rows, File.timedRows, List.length_filterMap_eq_countP]
  refine List.countP_congr fun line _ => ?_
  rw [rowOf, isTimed]
  cases decodeLine line with
  | error e => simp
  | ok text =>
    by_cases hskip : isSkipped (trimLineEnd text) = true
    · simp [hskip]
    · simp [hskip]

omit [F64 F] in
theorem mem_sampleRows {rows : List (List (Option F))} {s : Sample F} :
    s ∈ sampleRows rows ↔ rows[s.row]? = some s.values := by
  rw [sampleRows, List.mem_map]
  constructor
  · rintro ⟨⟨row, k⟩, hmem, rfl⟩
    exact List.mem_zipIdx_iff_getElem?.mp hmem
  · intro h
    exact ⟨(s.values, s.row), List.mem_zipIdx_iff_getElem?.mpr h, rfl⟩

omit [F64 F] in
theorem pairwise_sampleRows (rows : List (List (Option F))) :
    (sampleRows rows).Pairwise Sample.Before := by
  rw [sampleRows, List.pairwise_map]
  have h := List.pairwise_lt_range' (s := 0) (n := rows.length)
  rw [← List.zipIdx_map_snd 0 rows, List.pairwise_map] at h
  exact h

omit [F64 F] in
theorem pushRow_eq {α : Type} {columns : List (List α)} {values : List α}
    (h : columns.length = values.length) :
    pushRow columns values = List.zipWith (fun column v => column ++ [v]) columns values := by
  induction columns generalizing values with
  | nil =>
    obtain rfl := List.length_eq_zero_iff.mp h.symm
    rfl
  | cons column columns ih =>
    cases values with
    | nil => exact nomatch h
    | cons v values => exact congrArg ((column ++ [v]) :: ·) (ih (Nat.succ.inj h))

omit [F64 F] in
theorem pushAll_eq {n : ℕ} {kept : List (Sample F)} (h : ∀ s ∈ kept, s.values.length = n)
    (f : ℕ → List (Option F)) :
    pushAll kept ((List.range n).map f) =
      (List.range n).map fun c => f c ++ kept.map fun s => s.values.getD c none := by
  induction kept generalizing f with
  | nil => simp [pushAll]
  | cons s kept ih =>
    have hs := h s List.mem_cons_self
    have hpush : pushRow ((List.range n).map f) s.values =
        (List.range n).map fun c => f c ++ [s.values.getD c none] := by
      rw [pushRow_eq (by rw [List.length_map, List.length_range, hs])]
      refine List.ext_getElem (by simp [hs]) fun c h₁ h₂ => ?_
      simp only [List.length_map, List.length_range] at h₂
      simp [List.getD_eq_getElem?_getD, hs, h₂]
    rw [pushAll, List.foldl_cons, hpush]
    refine (ih (fun s' hs' => h s' (List.mem_cons_of_mem _ hs')) _).trans ?_
    exact List.map_congr_left fun c _ => by rw [List.append_assoc]; rfl

/-! ## The overview -/

def cellAt (rows : List (List (Option F))) (k c : ℕ) : Option F := (rows.getD k []).getD c none

/-- The rows `kept`, as columns, stand for all rows. -/
structure KeepsRows (rows : List (List (Option F))) (n : ℕ) (kept : List ℕ)
    (columns : List (List (Option F))) : Prop where
  columns : columns = (List.range n).map fun c => kept.map fun k => cellAt rows k c
  increasing : kept.Pairwise (· < ·)
  inFile : ∀ k ∈ kept, k < rows.length
  first : 0 ∈ kept
  last : rows.length - 1 ∈ kept
  lowest : ∀ c, 1 ≤ c → c < n → (∃ k < rows.length, (cellAt rows k c).isSome) →
    ∃ k₀ ∈ kept, ∃ m, cellAt rows k₀ c = some m ∧
      ∀ k < rows.length, ∀ x, cellAt rows k c = some x → F64.lt x m = false
  highest : ∀ c, 1 ≤ c → c < n → (∃ k < rows.length, (cellAt rows k c).isSome) →
    ∃ k₀ ∈ kept, ∃ m, cellAt rows k₀ c = some m ∧
      ∀ k < rows.length, ∀ x, cellAt rows k c = some x → F64.lt m x = false
  missing : ∀ c, 1 ≤ c → c < n → (∃ k < rows.length, cellAt rows k c = none) →
    ∃ k₀ ∈ kept, cellAt rows k₀ c = none

/-- Of finite numbers some is the first, in an order that tells finite numbers apart. -/
theorem exists_first {r : F → F → Bool} (hasymm : ∀ a b, r a b = true → r b a = false)
    (hcotrans : ∀ a b c, F64.isFinite b = true → r a c = true → r a b = true ∨ r b c = true)
    {l : List F} (hne : l ≠ []) (hl : ∀ x ∈ l, F64.isFinite x = true) :
    ∃ m ∈ l, ∀ x ∈ l, r x m = false := by
  have hirrefl : ∀ x, r x x = false := fun x =>
    Bool.eq_false_iff.mpr fun h => absurd h (by rw [hasymm x x h]; exact Bool.false_ne_true)
  induction l with
  | nil => exact absurd rfl hne
  | cons x l ih =>
    by_cases hnil : l = []
    · subst hnil
      refine ⟨x, List.mem_cons_self, fun y hy => ?_⟩
      rw [List.mem_singleton.mp hy]
      exact hirrefl x
    · obtain ⟨m, hm, hleast⟩ := ih hnil fun y hy => hl y (List.mem_cons_of_mem _ hy)
      cases hlt : r x m with
      | false =>
        refine ⟨m, List.mem_cons_of_mem _ hm, fun y hy => ?_⟩
        rcases List.mem_cons.mp hy with rfl | hy
        · exact hlt
        · exact hleast y hy
      | true =>
        refine ⟨x, List.mem_cons_self, fun y hy => ?_⟩
        rcases List.mem_cons.mp hy with rfl | hy
        · exact hirrefl y
        · refine Bool.eq_false_iff.mpr fun hyx => ?_
          rcases hcotrans y m x (hl m (List.mem_cons_of_mem _ hm)) hyx with h | h
          · exact absurd h (by rw [hleast y hy]; exact Bool.false_ne_true)
          · exact absurd h (by rw [hasymm x m hlt]; exact Bool.false_ne_true)

/-- Where samples are kept that stand for each number, one stands for the first of them. -/
theorem Covers.first {r : F → F → Bool} (hasymm : ∀ a b, r a b = true → r b a = false)
    (hcotrans : ∀ a b c, F64.isFinite b = true → r a c = true → r a b = true ∨ r b c = true)
    {kept g : List (Sample F)} {n : ℕ} (hg : ∀ s ∈ g, s.Proper n)
    (h : Covers (fun u v => ∃ x y, u = some x ∧ v = some y ∧ r y x = false) kept g) {c : ℕ}
    (hc : 1 ≤ c) {s : Sample F} (hs : s ∈ g) {x : F} (hx : s.values[c]? = some (some x)) :
    ∃ s₀ ∈ kept, ∃ m, s₀.values[c]? = some (some m) ∧
      ∀ s ∈ g, ∀ x, s.values[c]? = some (some x) → r x m = false := by
  have hirrefl : ∀ x, r x x = false := fun x =>
    Bool.eq_false_iff.mpr fun h => absurd h (by rw [hasymm x x h]; exact Bool.false_ne_true)
  have hmem : ∀ y, y ∈ g.filterMap (fun s => (s.values[c]?).join) ↔
      ∃ s ∈ g, s.values[c]? = some (some y) := by
    intro y
    simp only [List.mem_filterMap, Option.join_eq_some_iff]
  have hfinite : ∀ y ∈ g.filterMap (fun s => (s.values[c]?).join), F64.isFinite y = true := by
    intro y hy
    obtain ⟨s', hs', hy⟩ := (hmem y).mp hy
    exact (hg s' hs').finite y (List.mem_of_getElem? hy)
  obtain ⟨m, hm, hleast⟩ := exists_first hasymm hcotrans
    (List.ne_nil_of_mem ((hmem x).mpr ⟨s, hs, hx⟩)) hfinite
  obtain ⟨s₁, hs₁, hm₁⟩ := (hmem m).mp hm
  obtain ⟨s₀, hs₀, u, hu, x₀, y₀, rfl, hy₀, hlt⟩ :=
    h c hc s₁ hs₁ (some m) hm₁ ⟨m, m, rfl, rfl, hirrefl m⟩
  obtain rfl := Option.some.inj hy₀
  refine ⟨s₀, hs₀, x₀, hu, fun s' hs' y hy => Bool.eq_false_iff.mpr fun hyx => ?_⟩
  rcases hcotrans y m x₀ (hfinite m hm) hyx with h | h
  · exact absurd h (by rw [hleast y ((hmem y).mpr ⟨s', hs', hy⟩)]; exact Bool.false_ne_true)
  · exact absurd h (by rw [hlt]; exact Bool.false_ne_true)

/-- What is kept of the samples of rows stands for the rows. -/
theorem Represents.keepsRows [LawfulF64 F] {rows : List (List (Option F))} {n : ℕ}
    (hrows : ∀ s ∈ sampleRows rows, s.Proper n) (hne : rows ≠ []) {kept : List (Sample F)}
    (h : Represents kept (sampleRows rows)) :
    KeepsRows rows n (kept.map Sample.row) (pushAll kept (List.replicate n [])) := by
  have hat : ∀ s ∈ sampleRows rows, ∀ c, cellAt rows s.row c = s.values.getD c none := by
    intro s hs c
    rw [cellAt, List.getD_eq_getElem?_getD (l := rows), mem_sampleRows.mp hs]
    rfl
  have hsample : ∀ k < rows.length, ⟨k, rows.getD k []⟩ ∈ sampleRows rows := by
    intro k hk
    rw [mem_sampleRows, List.getD_eq_getElem?_getD, List.getElem?_eq_getElem hk]
    rfl
  have hvalue : ∀ k < rows.length, ∀ c < n,
      (rows.getD k [])[c]? = some (cellAt rows k c) := by
    intro k hk c hc
    have hlength := (hrows _ (hsample k hk)).length
    dsimp only at hlength
    rw [cellAt, List.getD_eq_getElem?_getD (l := rows.getD k []),
      List.getElem?_eq_getElem (hlength.symm ▸ hc)]
    rfl
  have hkept : ∀ s ∈ kept, s.values.length = n := fun s hs => (hrows s (h.mem s hs)).length
  have hcell : ∀ s ∈ sampleRows rows, ∀ c v, s.values[c]? = some v → cellAt rows s.row c = v := by
    intro s hs c v hv
    rw [hat s hs, List.getD_eq_getElem?_getD, hv]
    rfl
  exact
    { columns := by
        have hstart : List.replicate n ([] : List (Option F)) = (List.range n).map fun _ => [] := by
          rw [List.map_const', List.length_range]
        rw [hstart, pushAll_eq hkept]
        refine List.map_congr_left fun c _ => ?_
        rw [List.nil_append, List.map_map]
        exact List.map_congr_left fun s hs => (hat s (h.mem s hs) c).symm
      increasing := List.pairwise_map.mpr h.rows
      inFile := by
        intro k hk
        obtain ⟨s, hs, rfl⟩ := List.mem_map.mp hk
        exact (List.getElem?_eq_some_iff.mp (mem_sampleRows.mp (h.mem s hs))).1
      first := by
        obtain ⟨row, rest, rfl⟩ := List.exists_cons_of_ne_nil hne
        exact List.mem_map.mpr ⟨⟨0, row⟩, h.first _ rfl, rfl⟩
      last := by
        obtain ⟨front, row, rfl⟩ := List.eq_nil_or_concat rows |>.resolve_left hne
        refine List.mem_map.mpr ⟨⟨front.length, row⟩, h.last _ ?_, ?_⟩
        · rw [List.concat_eq_append, sampleRows_concat, List.getLast?_concat]
        · simp
      lowest := by
        rintro c hc hlt ⟨k, hk, hsome⟩
        obtain ⟨x, hx⟩ := Option.isSome_iff_exists.mp hsome
        have hcovers : Covers (fun u v => ∃ x y : F, u = some x ∧ v = some y ∧
          F64.lt y x = false) kept (sampleRows rows) := h.low
        obtain ⟨s₀, hs₀, m, hm, hleast⟩ := hcovers.first LawfulF64.lt_asymm LawfulF64.lt_cotrans
          hrows hc (hsample k hk) (hx ▸ hvalue k hk c hlt)
        refine ⟨s₀.row, List.mem_map_of_mem hs₀, m, hcell s₀ (h.mem s₀ hs₀) c _ hm, ?_⟩
        intro k' hk' y hy
        exact hleast _ (hsample k' hk') y (hy ▸ hvalue k' hk' c hlt)
      highest := by
        rintro c hc hlt ⟨k, hk, hsome⟩
        obtain ⟨x, hx⟩ := Option.isSome_iff_exists.mp hsome
        have hcovers : Covers (fun u v => ∃ x y : F, u = some x ∧ v = some y ∧
          F64.lt x y = false) kept (sampleRows rows) := h.high
        obtain ⟨s₀, hs₀, m, hm, hleast⟩ := Covers.first (r := fun a b => F64.lt b a)
          (fun a b => LawfulF64.lt_asymm b a)
          (fun a b c hb hlt => (LawfulF64.lt_cotrans c b a hb hlt).symm)
          hrows hcovers hc (hsample k hk) (hx ▸ hvalue k hk c hlt)
        refine ⟨s₀.row, List.mem_map_of_mem hs₀, m, hcell s₀ (h.mem s₀ hs₀) c _ hm, ?_⟩
        intro k' hk' y hy
        exact hleast _ (hsample k' hk') y (hy ▸ hvalue k' hk' c hlt)
      missing := by
        rintro c hc hlt ⟨k, hk, hnone⟩
        obtain ⟨s₀, hs₀, u, hu, rfl, -⟩ :=
          h.missing c hc _ (hsample k hk) none (hnone ▸ hvalue k hk c hlt) ⟨rfl, rfl⟩
        exact ⟨s₀.row, List.mem_map_of_mem hs₀, hcell s₀ (h.mem s₀ hs₀) c _ hu⟩ }

theorem Scan.position_run {selected : List ℕ} {dataStart bucketBytes : ℕ} {s s' : Scan F}
    {lines : List (List UInt8)}
    (h : lines.foldlM (Scan.line selected dataStart bucketBytes) s = .ok s') :
    s'.position = s.position + lines.flatten.length := by
  induction lines generalizing s with
  | nil => exact congrArg (fun s => s.position) (Except.ok.inj h).symm
  | cons line lines ih =>
    obtain ⟨s₁, h₁, h⟩ := except_bind_eq_ok.mp h
    have hstep : s₁.position = s.position + line.length := by
      obtain ⟨text, -, ⟨-, rfl⟩ | ⟨-, -, rfl⟩ | ⟨-, t, -, rfl⟩⟩ := Scan.line_cases h₁
      · rfl
      · rfl
      · exact congrArg Rows.position (Scan.toRows_enter _ _)
    rw [ih h, hstep, List.flatten_cons, List.length_append, Nat.add_assoc]

/-- How many bytes there are to a bucket of the first scan. -/
def bucketBytes (f : File) (header : Header) (query : Query F) : ℕ :=
  max (divCeil (f.bytes.length - header.dataStart)
    (bucketCount query (selectedColumns header.labels query))) 1

theorem exists_buckets {path : String} {f : File} {query : Query F} {i : Index F}
    {columns : List (List (Option F))} (h : Index.scan path f query = .ok (i, columns)) :
    ∃ (header : Header) (s : Scan F) (groups : List (List (Sample F))) (current : List (Sample F)),
      readHeaders f.bytes = .ok header ∧ i = header.index path f s.toRows ∧
      s.Buckets (selectedColumns i.labels query) header.dataStart (bucketBytes f header query)
        (f.rows (selectedColumns i.labels query)) groups current ∧
      s.position - header.dataStart ≤ f.bytes.length - header.dataStart ∧
      (fullDetailRows < i.entries.length →
        columns = pushAll ((groups ++ [current]).flatMap keepOf)
          (List.replicate (selectedColumns i.labels query).length [])) := by
  obtain ⟨header, hh, h⟩ := except_bind_eq_ok.mp h
  obtain ⟨s, hs, h⟩ := except_bind_eq_ok.mp h
  obtain ⟨rfl, rfl⟩ := Prod.mk.inj (Except.ok.inj h)
  obtain ⟨hlines, hdrop⟩ := readHeaders_lines hh
  have hne : ∀ line ∈ header.lines, line ≠ [] := fun line hl =>
    Reader.ne_nil_of_mem_readLines (hlines ▸ hl)
  have hstart : (Scan.start (F := F) header.dataStart
      (selectedColumns header.labels query).length).Buckets (selectedColumns header.labels query)
      header.dataStart (bucketBytes f header query) [] [] [] :=
    { entries := rfl
      offsets := fun _ he => nomatch he
      samples := rfl
      overview := rfl
      bucket := rfl
      count := le_rfl
      place := .inl rfl }
  obtain ⟨groups, current, hend⟩ := hstart.run hne hs
  rw [List.nil_append, hdrop] at hend
  refine ⟨header, s, groups, current, hh, rfl, hend, ?_, fun hmany => ?_⟩
  · have hposition : s.position = header.dataStart + header.lines.flatten.length :=
      Scan.position_run hs
    rw [hposition, ← hlines, Reader.flatten_readLines, List.length_drop]
    omega
  · have hmany : ¬ s.entries.length ≤ fullDetailRows := Nat.not_le.mpr hmany
    rw [if_neg hmany, hend.bucket, finishBucket_collect, hend.overview, List.flatMap_append,
      List.flatMap_singleton, pushAll, pushAll, pushAll, List.foldl_append]

theorem le_mul_divCeil (a : ℕ) {b : ℕ} (hb : 0 < b) : a ≤ b * divCeil a b := by
  have hmod := Nat.div_add_mod (a + b - 1) b
  have hlt := Nat.mod_lt (a + b - 1) hb
  rw [divCeil]
  omega

theorem Scan.Buckets.count_le {f : File} {header : Header} {query : Query F}
    {rows : List (List (Option F))} {groups : List (List (Sample F))} {current : List (Sample F)}
    {s : Scan F} {selected : List ℕ}
    (h : s.Buckets selected header.dataStart (bucketBytes f header query) rows groups current)
    (hposition : s.position - header.dataStart ≤ f.bytes.length - header.dataStart) :
    (groups ++ [current]).length ≤ bucketCount query (selectedColumns header.labels query) := by
  have hpos : 0 < bucketCount query (selectedColumns header.labels query) :=
    Nat.lt_of_lt_of_le Nat.one_pos (Nat.le_max_right _ _)
  have hcount := h.count
  rw [List.length_append, List.length_singleton]
  rcases h.place with h₀ | ⟨e, he, hid⟩
  · omega
  · by_cases h₀ : s.bucketId = 0
    · omega
    · -- the bucket begins before the end of the data
      have hbefore := h.offsets e he
      have hmul : s.bucketId * bucketBytes f header query ≤ e.1 - header.dataStart :=
        hid ▸ Nat.div_mul_le_self _ _
      have hdata : f.bytes.length - header.dataStart ≤
          bucketCount query (selectedColumns header.labels query) * bucketBytes f header query :=
        (le_mul_divCeil _ hpos).trans (Nat.mul_le_mul_left _ (Nat.le_max_left _ _))
      have hbytes : 0 < bucketBytes f header query :=
        Nat.lt_of_lt_of_le Nat.one_pos (Nat.le_max_right _ _)
      have hone : bucketBytes f header query ≤ s.bucketId * bucketBytes f header query :=
        Nat.le_mul_of_pos_left _ (Nat.pos_of_ne_zero h₀)
      have hlt : s.bucketId * bucketBytes f header query <
          bucketCount query (selectedColumns header.labels query) * bucketBytes f header query := by
        omega
      have := Nat.lt_of_mul_lt_mul_right hlt
      omega

/-! ## A log of equal rows -/

/-- A header, `n` rows of the time zero, and `m` empty lines. -/
def equalLines (n m : ℕ) : List (List UInt8) :=
  [[116, 10], [84, 105, 109, 101, 9, 82, 80, 77, 10], [115, 9, 114, 112, 109, 10]] ++
    (List.replicate n [48, 10] ++ List.replicate m [10])

def equalRows (n m : ℕ) : File := ⟨(equalLines n m).flatten, some 0⟩

section EqualRows

variable (n m : ℕ)

theorem readLines_equalRows : Reader.readLines (equalRows n m).bytes = equalLines n m := by
  refine Reader.readLines_flatten fun line hl => ?_
  rcases List.mem_append.mp hl with hl | hl
  · simp only [List.mem_cons, List.not_mem_nil, or_false] at hl
    rcases hl with rfl | rfl | rfl
    · exact ⟨[116], by decide, rfl⟩
    · exact ⟨[84, 105, 109, 101, 9, 82, 80, 77], by decide, rfl⟩
    · exact ⟨[115, 9, 114, 112, 109], by decide, rfl⟩
  · rcases List.mem_append.mp hl with hl | hl
    · exact ⟨[48], by decide, List.eq_of_mem_replicate hl⟩
    · exact ⟨[], by decide, List.eq_of_mem_replicate hl⟩

theorem timedRows_equalRows : (equalRows n m).timedRows XRat = n := by
  have hrow : isTimed XRat [48, 10] = true := by decide +kernel
  have hblank : isTimed XRat [10] = false := by decide +kernel
  have hdrop : (equalLines n m).drop 3 = List.replicate n [48, 10] ++ List.replicate m [10] := rfl
  rw [File.timedRows, readLines_equalRows, hdrop, List.countP_append, List.countP_replicate,
    List.countP_replicate, hrow, hblank]
  rfl

theorem length_equalRows : (equalRows n m).bytes.length = 17 + 2 * n + m := by
  simp only [equalRows, equalLines, List.length_flatten, List.map_append, List.sum_append,
    List.map_replicate, List.sum_replicate_nat, List.map_cons, List.map_nil, List.sum_cons,
    List.sum_nil, List.length_cons, List.length_nil]
  omega

def equalHeader : Header where
  title := "t"
  labels := ["Time", "RPM"]
  units := ["s", "rpm"]
  dataStart := 17
  lines := List.replicate n [48, 10] ++ List.replicate m [10]

theorem readHeaders_equalRows : readHeaders (equalRows n m).bytes = .ok (equalHeader n m) := by
  rw [readHeaders, readLines_equalRows, equalLines, equalHeader]
  generalize List.replicate n [48, 10] ++ List.replicate m [10] = rest
  rfl

theorem foldlM_rows (s : Rows XRat) :
    ∃ s', (List.replicate n [48, 10]).foldlM Rows.line s = .ok s' ∧
      s'.position = s.position + 2 * n ∧
      ∀ e ∈ s'.entries, e ∈ s.entries ∨ e.1 < s.position + 2 * n := by
  induction n generalizing s with
  | zero => exact ⟨s, rfl, rfl, fun e he => .inl he⟩
  | succ n ih =>
    have hline : Rows.line s [48, 10] =
        .ok ⟨s.position + 2, s.entries ++ [(s.position, XRat.fin 0)], s.rows + 1⟩ := by
      have htime : rowTime ['0'] = some (XRat.fin 0) := by decide +kernel
      have htext : decodeLine [48, 10] = .ok ['0', '\n'] := by decide +kernel
      have hrow : trimLineEnd ['0', '\n'] = ['0'] := by decide +kernel
      rw [Rows.line, htext]
      simp only [except_ok_bind, hrow, htime]
      rfl
    obtain ⟨s', hs', hposition, hentries⟩ :=
      ih ⟨s.position + 2, s.entries ++ [(s.position, XRat.fin 0)], s.rows + 1⟩
    dsimp only at hposition hentries
    refine ⟨s', ?_, by omega, fun e he => ?_⟩
    · rw [List.replicate_succ, List.foldlM_cons, hline]
      exact hs'
    · rcases hentries e he with he | hlt
      · rcases List.mem_append.mp he with he | he
        · exact .inl he
        · rw [List.mem_singleton.mp he]
          exact .inr (by dsimp only; omega)
      · exact .inr (by omega)

theorem foldlM_blanks (s : Rows XRat) :
    (List.replicate m [10]).foldlM Rows.line s = .ok { s with position := s.position + m } := by
  induction m generalizing s with
  | zero => rfl
  | succ m ih =>
    have hline : Rows.line s [10] = .ok { s with position := s.position + 1 } := by
      have htext : decodeLine [10] = .ok ['\n'] := by decide +kernel
      have hrow : trimLineEnd ['\n'] = [] := by decide +kernel
      rw [Rows.line, htext]
      simp only [except_ok_bind, hrow]
      rfl
    rw [List.replicate_succ, List.foldlM_cons, hline, except_ok_bind, ih]
    dsimp only
    rw [Nat.add_assoc, Nat.add_comm 1 m]

theorem contents_equalRows (path : String) :
    ∃ s : Rows XRat, contents path (equalRows n m) =
        .ok ((equalHeader n m).index path (equalRows n m) s) ∧
      ∀ e ∈ s.entries, e.1 < 17 + 2 * n := by
  obtain ⟨s, hs, -, hentries⟩ := foldlM_rows n ⟨17, [], 0⟩
  refine ⟨{ s with position := s.position + m }, ?_, fun e he => ?_⟩
  · have hrun : (equalHeader n m).lines.foldlM Rows.line
        (⟨(equalHeader n m).dataStart, [], 0⟩ : Rows XRat) =
          .ok { s with position := s.position + m } := by
      rw [equalHeader, List.foldlM_append, hs]
      exact foldlM_blanks m s
    rw [contents, readHeaders_equalRows]
    simp only [except_ok_bind, hrun]
    rfl
  · rcases hentries e he with h | h
    · cases h
    · exact h

end EqualRows

/-! ## What the overview keeps -/

/-- **The first scan keeps what matters within its budget.** -/
theorem build_keeps [LawfulF64 F] {path : String} {f : File} {name : String} {query : Query F}
    {i : Index F} (h : Index.build path f name query = .ok i)
    (hmany : fullDetailRows < f.timedRows F) :
    ∃ view kept, i.views = [(query.whole, view)] ∧
      KeepsRows (f.rows (selectedColumns i.labels query)) (selectedColumns i.labels query).length
        kept view.columns ∧
      kept.length ≤ max (budget query) (2 + 3 * ((selectedColumns i.labels query).length - 1)) := by
  obtain ⟨⟨c, columns⟩, hscan, hbuild⟩ := except_bind_eq_ok.mp h
  obtain rfl := Except.ok.inj hbuild
  obtain ⟨header, s, groups, current, -, rfl, hbuckets, hposition, hcolumns⟩ :=
    exists_buckets hscan
  have hlength : fullDetailRows < (header.index path f s.toRows).entries.length := by
    rw [length_entries (scanned hscan).contents]
    exact hmany
  have hselected : selectedColumns header.labels query ≠ [] := List.cons_ne_nil _ _
  have hproper : ∀ x ∈ sampleRows (f.rows (F := F) (selectedColumns header.labels query)),
      x.Proper (selectedColumns header.labels query).length := by
    intro x hx
    obtain ⟨line, -, hrow⟩ := List.mem_filterMap.mp (List.mem_of_getElem? (mem_sampleRows.mp hx))
    exact rowOf_proper hselected hrow x.row
  have hne : f.rows (F := F) (selectedColumns header.labels query) ≠ [] := by
    apply List.ne_nil_of_length_pos
    have := length_rows (F := F) f (selectedColumns header.labels query)
    omega
  have hflatten : (groups ++ [current]).flatten =
      sampleRows (f.rows (selectedColumns header.labels query)) := by
    rw [List.flatten_append, List.flatten_singleton]
    exact hbuckets.samples
  have hrepresents := represents_flatMap (groups ++ [current])
    (by rw [hflatten]; exact hproper) (by rw [hflatten]; exact pairwise_sampleRows _)
  rw [hflatten] at hrepresents
  refine ⟨_, ((groups ++ [current]).flatMap keepOf).map Sample.row, rfl, ?_, ?_⟩
  · dsimp only [Index.view]
    rw [hcolumns hlength]
    exact hrepresents.keepsRows hproper hne
  · have hcount := hbuckets.count_le hposition
    have hper := length_flatMap_keepOf_le (groups ++ [current])
      (by rw [hflatten]; exact hproper)
    have hmul := Nat.mul_le_mul_right
      (2 + 3 * ((selectedColumns header.labels query).length - 1)) hcount
    have hbudget : bucketCount query (selectedColumns header.labels query) *
        (2 + 3 * ((selectedColumns header.labels query).length - 1)) ≤
        max (budget query) (2 + 3 * ((selectedColumns header.labels query).length - 1)) := by
      rw [bucketCount, ← Nat.mul_max_mul_right, Nat.one_mul]
      exact max_le_max (Nat.div_mul_le_self _ _) le_rfl
    rw [List.length_map]
    exact (hper.trans hmul).trans hbudget

/-- The times alone, with so many points. -/
def timesOnly (points : ℕ) : Query XRat := ⟨none, none, some "", some points⟩

end RustyTune.Server.LogView
