import Mathlib.Data.Option.Basic
import RustyTune.Server.Sampling

/-!
# What was asked before

* `Codec.Keeps`: an index whose numbers the cache keeps comes back from it as it was written.
* `Index.Of`, `Caches.Of`: an index, and caches, of a log as it is; `Caches.Of.next`: they stay so.
* `Shows`: a view is that of the first scan, or of rows read again.
* **`view_of_history`**: whatever was asked before, the answer is as if nothing had been, but for the
  columns of a sample. **`sample_depends`**: those differ.
-/

namespace RustyTune.Server.LogView

variable {F J : Type} [F64 F] {path : String} {f : File}

/-! ## The numbers that are cached -/

def Query.numbers (q : Query F) : List F := q.start.toList ++ q.stop.toList

def View.numbers (v : View F) : List F :=
  (v.range.elim [] fun r => [r.1, r.2]) ++ v.columns.flatten.reduceOption

def Index.numbers (i : Index F) : List F :=
  i.entries.map Prod.snd ++ i.views.flatMap fun e => e.1.numbers ++ e.2.numbers

/-- An index comes back as it was written when its numbers do. -/
def Codec.Keeps (codec : Codec F J) (kept : F → Prop) : Prop :=
  ∀ version i json, (∀ x ∈ i.numbers, kept x) → codec.toJson version i = some json →
    codec.fromJson json = some (version, i)

theorem File.Holds.mem_numbers {e : ℕ × F} (h : f.Holds e) : e.2 ∈ f.numbers := by
  obtain ⟨row, hrow, -, ht⟩ := h
  exact List.mem_flatMap.mpr ⟨row, hrow, rowTime_mem ht⟩

theorem Index.mem_range [LawfulF64 F] {i : Index F} (h : ∀ e ∈ i.entries, e.2 ∈ f.numbers)
    (name : String) (selected : List ℕ) (rows : ℕ) (columns : List (List (Option F))) :
    ∀ r ∈ (i.view name selected rows columns).range, r.1 ∈ f.numbers ∧ r.2 ∈ f.numbers := by
  have hstart : ∀ r ∈ (none : Option (F × F)), r.1 ∈ f.numbers ∧ r.2 ∈ f.numbers :=
    fun r hr => nomatch hr
  rw [Index.view]
  dsimp only
  generalize (none : Option (F × F)) = acc at hstart
  generalize i.entries = entries at h
  induction entries generalizing acc with
  | nil => exact hstart
  | cons e entries ih =>
    have he := h e List.mem_cons_self
    refine ih _ (fun r hr => ?_) fun e' he' => h e' (List.mem_cons_of_mem _ he')
    rw [← Option.some.inj hr]
    cases acc with
    | none => exact ⟨he, he⟩
    | some r₀ =>
      obtain ⟨hlow, hhigh⟩ := hstart r₀ rfl
      rw [Option.elim_some]
      constructor
      · rcases LawfulF64.min_eq r₀.1 e.2 with hmin | hmin
        · rwa [hmin]
        · rwa [hmin]
      · rcases LawfulF64.max_eq r₀.2 e.2 with hmax | hmax
        · rwa [hmax]
        · rwa [hmax]

theorem Index.mem_view_numbers [LawfulF64 F] {i : Index F} (h : ∀ e ∈ i.entries, e.2 ∈ f.numbers)
    {columns : List (List (Option F))} (hcolumns : f.HasColumns columns) (name : String)
    (selected : List ℕ) (rows : ℕ) :
    ∀ x ∈ (i.view name selected rows columns).numbers, x ∈ f.numbers := by
  intro x hx
  rcases List.mem_append.mp hx with hx | hx
  · have hrange := Index.mem_range h name selected rows columns
    cases hr : (i.view name selected rows columns).range with
    | none =>
      rw [hr] at hx
      exact nomatch hx
    | some r =>
      rw [hr] at hx
      obtain ⟨hlow, hhigh⟩ := hrange r hr
      rcases List.mem_cons.mp hx with rfl | hx
      · exact hlow
      · exact List.mem_singleton.mp hx ▸ hhigh
  · obtain ⟨column, hc, hx⟩ := List.mem_flatten.mp (List.reduceOption_mem_iff.mp hx)
    exact hcolumns column hc (some x) hx x rfl

/-! ## Indexes of the file -/

/-- A view of the first scan, or of rows read again. -/
inductive Shows (path : String) (f : File) (c : Index F) (query : Query F) : View F → Prop
  | first {columns : List (List (Option F))} (name : String) :
    query.start = none → query.stop = none → Index.scan path f query = .ok (c, columns) →
    Shows path f c query
      (c.view name (selectedColumns c.labels query) c.entries.length columns)
  | rows (name : String) :
    Shows path f c query (c.view name (selectedColumns c.labels query) (c.covered query).length
      (c.rowsColumns f query))

/-- An index with the contents of the file, and with views of it. -/
structure Index.Of (path : String) (f : File) (i : Index F) : Prop where
  contents : contents path f = .ok { i with views := [] }
  views : ∀ e ∈ i.views, Shows path f { i with views := [] } e.1 e.2

theorem path_of_contents {c : Index F} (h : contents path f = .ok c) : c.path = path := by
  obtain ⟨header, s, -, -, rfl⟩ := contents_eq_ok h
  rfl

namespace Index.Of

variable {i : Index F}

theorem path_eq (h : i.Of path f) : i.path = path :=
  path_of_contents (c := { i with views := [] }) h.contents

theorem holds (h : i.Of path f) : ∀ e ∈ i.entries, f.Holds e :=
  holds_of_contents (c := { i with views := [] }) h.contents

theorem withViews (h : i.Of path f) {views : List (Query F × View F)}
    (hv : ∀ e ∈ views, Shows path f { i with views := [] } e.1 e.2) :
    Index.Of path f { i with views } := ⟨h.contents, hv⟩

theorem remember (h : i.Of path f) (name : String) (query : Query F) :
    (i.remember query (i.view name (selectedColumns i.labels query) (i.covered query).length
      (i.rowsColumns f query))).Of path f := by
  apply h.withViews
  intro e he
  rcases List.mem_append.mp he with he | he
  · split_ifs at he
    · exact h.views e (List.mem_of_mem_eraseIdx he)
    · exact h.views e he
  · rw [List.mem_singleton.mp he]
    exact .rows name

theorem mem_numbers [LawfulF64 F] (h : i.Of path f) {views : List (Query F × View F)}
    (hviews : views = i.views.filter fun e => e.1.start.isNone && e.1.stop.isNone) :
    ∀ x ∈ ({ i with views } : Index F).numbers, x ∈ f.numbers := by
  have htimes : ∀ e ∈ i.entries, e.2 ∈ f.numbers := fun e he => (h.holds e he).mem_numbers
  intro x hx
  rcases List.mem_append.mp hx with hx | hx
  · obtain ⟨e, he, rfl⟩ := List.mem_map.mp hx
    exact htimes e he
  · obtain ⟨⟨q, v⟩, he, hx⟩ := List.mem_flatMap.mp hx
    obtain ⟨he, hq⟩ := List.mem_filter.mp (hviews ▸ he)
    simp only [Bool.and_eq_true, Option.isNone_iff_eq_none] at hq
    rw [Query.numbers, hq.1, hq.2] at hx
    have hshows : Shows path f { i with views := [] } q v := h.views (q, v) he
    cases hshows with
    | first name _ _ hs => exact mem_view_numbers htimes (scanned hs).columns name _ _ x hx
    | rows name =>
      exact mem_view_numbers htimes (hasColumns_rowsColumns h.holds q) name _ _ x hx

end Index.Of

theorem scan_whole (path : String) (f : File) (query : Query F) :
    Index.scan path f query.whole = Index.scan path f query := rfl

theorem contents_views {c : Index F} (h : contents path f = .ok c) : { c with views := [] } = c := by
  obtain ⟨header, s, -, -, rfl⟩ := contents_eq_ok h
  rfl

theorem of_build {i : Index F} {name : String} {query : Query F}
    (h : Index.build path f name query = .ok i) : i.Of path f := by
  cases hc : contents (F := F) path f with
  | error e =>
    rw [build_of_error hc] at h
    exact nomatch h
  | ok c =>
    obtain ⟨columns, hs, hbuild⟩ := build_of_ok hc name query
    obtain rfl := Except.ok.inj (hbuild.symm.trans h)
    have hviews := contents_views hc
    refine ⟨hviews.symm ▸ hc, fun e he => ?_⟩
    rw [List.mem_singleton.mp he]
    dsimp only
    rw [hviews]
    exact .first name rfl rfl ((scan_whole path f query).trans hs)

/-! ## The caches -/

variable {codec : Codec F J} {kept : F → Prop} {fs : String → Except String File} {s : Caches F J}

/-- What is cached of the file is of the file. -/
structure Caches.Of (codec : Codec F J) (path : String) (f : File) (s : Caches F J) : Prop where
  memory : ∀ i ∈ s.cache, i.path = path → i.Of path f
  disk : ∀ json ∈ s.disk path,
    ∃ i : Index F, codec.fromJson json = some (cacheVersion, i) ∧ i.Of path f

theorem caches_of_empty (codec : Codec F J) (path : String) (f : File) :
    Caches.Of codec path f (.empty : Caches F J) :=
  ⟨(fun _ h => nomatch h), (fun _ h => nomatch h)⟩

omit [F64 F] in
theorem persist_cases (fs : String → Except String File) (codec : Codec F J) (i : Index F)
    (writable : Bool) (disk : String → Option J) (path : String) :
    i.persist fs codec writable disk path = disk path ∨
      i.persist fs codec writable disk path = none ∨
      path = i.path ∧ ∃ json, codec.toJson cacheVersion
          { i with views := i.views.filter fun e => e.1.start.isNone && e.1.stop.isNone } =
            some json ∧
        i.persist fs codec writable disk path = some json := by
  rw [Index.persist]
  cases fs i.path with
  | error e => exact .inl rfl
  | ok f' =>
    dsimp only
    split_ifs with hchanged hwritable
    · exact .inl rfl
    · cases hwritten : codec.toJson cacheVersion
          { i with views := i.views.filter fun e => e.1.start.isNone && e.1.stop.isNone } with
      | none => exact .inl rfl
      | some json =>
        dsimp only
        split_ifs with hpath
        · exact .inr (.inr ⟨hpath, json, rfl, rfl⟩)
        · exact .inr (.inl rfl)
        · exact .inl rfl
    · cases codec.toJson cacheVersion
          { i with views := i.views.filter fun e => e.1.start.isNone && e.1.stop.isNone } <;>
        exact .inl rfl

theorem Caches.Of.persist [LawfulF64 F] (hk : codec.Keeps kept) (hf : ∀ x ∈ f.numbers, kept x)
    (hs : s.Of codec path f) {i : Index F} (hi : i.path = path → i.Of path f) (writable : Bool) :
    ∀ json ∈ i.persist fs codec writable s.disk path,
      ∃ i : Index F, codec.fromJson json = some (cacheVersion, i) ∧ i.Of path f := by
  intro json hjson
  rcases persist_cases fs codec i writable s.disk path with
    h | h | ⟨hpath, written, hwritten, h⟩
  · exact hs.disk json (h ▸ hjson)
  · rw [h] at hjson
    exact nomatch hjson
  · rw [h] at hjson
    have hof := hi hpath.symm
    obtain rfl := Option.some.inj hjson
    exact ⟨_, hk _ _ _ (fun x hx => hf x (hof.mem_numbers rfl x hx)) hwritten,
      hof.withViews fun e he => hof.views e (List.mem_of_mem_filter he)⟩

omit [F64 F] in
theorem path_of_isOf {p : String} {f' : File} {i : Index F} (h : i.isOf p f' = true) :
    i.path = p := by
  simp only [Index.isOf, Bool.and_eq_true, beq_iff_eq] at h
  exact h.1.1.1

theorem restore_eq_some {disk : String → Option J} {p : String} {f' : File} {i : Index F}
    (h : Index.restore codec disk p f' = some i) :
    i.path = p ∧ ∃ json ∈ disk p, ∃ version, codec.fromJson json = some (version, i) := by
  obtain ⟨json, hjson, h⟩ := Option.bind_eq_some_iff.mp h
  obtain ⟨⟨version, i'⟩, hi, h⟩ := Option.bind_eq_some_iff.mp h
  obtain ⟨⟨⟩, hguard, h⟩ := Option.bind_eq_some_iff.mp h
  obtain rfl := Option.some.inj h
  have hcheck := (Option.guard_eq_some' _).mp hguard
  simp only [Bool.and_eq_true] at hcheck
  exact ⟨path_of_isOf hcheck.1.2, json, hjson, version, hi⟩

theorem Caches.Of.found (hs : s.Of codec path f) {writable : Bool} {p name : String} {f' : File}
    {query : Query F} (hfile : p = path → f' = f) {i : Index F} {s' : Caches F J}
    (h : s.index fs codec writable p f' name query = .ok (i, s')) :
    i.path = p ∧ (p = path → i.Of path f) := by
  rw [Caches.index] at h
  cases hmem : s.cache.filter (·.isOf p f') with
  | some i₀ =>
    rw [hmem] at h
    obtain ⟨rfl, rfl⟩ := Prod.mk.inj (Except.ok.inj h)
    obtain ⟨hcache, hof⟩ := Option.filter_eq_some_iff.mp hmem
    have hpath := path_of_isOf hof
    exact ⟨hpath, fun hp => hs.memory i₀ hcache (hpath.trans hp)⟩
  | none =>
    rw [hmem] at h
    dsimp only at h
    cases hdisk : Index.restore codec s.disk p f' with
    | some i₀ =>
      rw [hdisk] at h
      obtain ⟨rfl, rfl⟩ := Prod.mk.inj (Except.ok.inj h)
      obtain ⟨hpath, json, hjson, version, hread⟩ := restore_eq_some hdisk
      refine ⟨hpath, ?_⟩
      rintro rfl
      obtain ⟨i, hi, hof⟩ := hs.disk json hjson
      obtain ⟨-, rfl⟩ := Prod.mk.inj (Option.some.inj (hi.symm.trans hread))
      exact hof
    | none =>
      rw [hdisk] at h
      obtain ⟨i₀, hbuild, h⟩ := except_bind_eq_ok.mp h
      obtain ⟨rfl, rfl⟩ := Prod.mk.inj (Except.ok.inj h)
      have hbuilt := of_build hbuild
      refine ⟨hbuilt.path_eq, fun hp => ?_⟩
      obtain rfl := hfile hp
      exact hp ▸ hbuilt

/-- With an index of a log the caches are as they were, or hold that index. -/
theorem index_cases {writable : Bool} {p name : String} {f' : File} {query : Query F} {i : Index F}
    {s' : Caches F J} (h : s.index fs codec writable p f' name query = .ok (i, s')) :
    s' = s ∨ s' = { s with cache := some i } ∨
      s' = ⟨some i, i.persist fs codec writable s.disk⟩ := by
  rw [Caches.index] at h
  cases hmem : s.cache.filter (·.isOf p f') with
  | some i₀ =>
    rw [hmem] at h
    exact .inl (Prod.mk.inj (Except.ok.inj h)).2.symm
  | none =>
    rw [hmem] at h
    dsimp only at h
    cases hdisk : Index.restore codec s.disk p f' with
    | some i₀ =>
      rw [hdisk] at h
      obtain ⟨rfl, rfl⟩ := Prod.mk.inj (Except.ok.inj h)
      exact .inr (.inl rfl)
    | none =>
      rw [hdisk] at h
      obtain ⟨i₀, -, h⟩ := except_bind_eq_ok.mp h
      obtain ⟨rfl, rfl⟩ := Prod.mk.inj (Except.ok.inj h)
      exact .inr (.inr rfl)

theorem Caches.Of.index [LawfulF64 F] (hk : codec.Keeps kept) (hf : ∀ x ∈ f.numbers, kept x)
    (hs : s.Of codec path f) {writable : Bool} {p name : String} {f' : File} {query : Query F}
    (hfile : p = path → f' = f) {i : Index F} {s' : Caches F J}
    (h : s.index fs codec writable p f' name query = .ok (i, s')) : s'.Of codec path f := by
  obtain ⟨hpath, hof⟩ := hs.found hfile h
  have hof' : i.path = path → i.Of path f := fun hip => hof (hpath.symm.trans hip)
  have hmemory : ∀ i' ∈ some i, i'.path = path → i'.Of path f := by
    intro i' hi'
    obtain rfl := Option.some.inj hi'
    exact hof'
  rcases index_cases h with rfl | rfl | rfl
  · exact hs
  · exact ⟨hmemory, hs.disk⟩
  · exact ⟨hmemory, hs.persist hk hf hof' writable⟩

theorem Caches.Of.index_error (hs : s.Of codec path f) {e : String}
    (h : contents (F := F) path f = .error e) (writable : Bool) (name : String)
    (query : Query F) : s.index fs codec writable path f name query = .error e := by
  have hnone : ∀ i : Index F, ¬ i.Of path f := fun i hi => nomatch hi.contents.symm.trans h
  rw [Caches.index]
  cases hmem : s.cache.filter (·.isOf path f) with
  | some i =>
    obtain ⟨hcache, hof⟩ := Option.filter_eq_some_iff.mp hmem
    exact absurd (hs.memory i hcache (path_of_isOf hof)) (hnone i)
  | none =>
    dsimp only
    cases hdisk : Index.restore codec s.disk path f with
    | some i =>
      obtain ⟨-, json, hjson, version, hread⟩ := restore_eq_some hdisk
      obtain ⟨i', -, hof⟩ := hs.disk json hjson
      exact absurd hof (hnone i')
    | none =>
      dsimp only
      rw [build_of_error h]
      rfl

theorem index_total (fs : String → Except String File) (codec : Codec F J) {c : Index F}
    (h : contents path f = .ok c) (s : Caches F J) (writable : Bool) (name : String)
    (query : Query F) :
    ∃ r, s.index fs codec writable path f name query = .ok r := by
  rw [Caches.index]
  cases s.cache.filter (·.isOf path f) with
  | some i => exact ⟨_, rfl⟩
  | none =>
    dsimp only
    cases Index.restore codec s.disk path f with
    | some i => exact ⟨_, rfl⟩
    | none =>
      obtain ⟨columns, -, hbuild⟩ := build_of_ok h name query
      dsimp only
      rw [hbuild]
      exact ⟨_, rfl⟩

/-! ## Answers -/

theorem Query.eq_of_same {q q' : Query F} (h : q.same q' = true) :
    q.channels = q'.channels ∧ q.points = q'.points ∧ (q.start = none ↔ q'.start = none) ∧
      (q.stop = none ↔ q'.stop = none) := by
  have hoption : ∀ a b : Option F, Query.same.sameOption a b = true → (a = none ↔ b = none) := by
    intro a b hab
    cases a <;> cases b <;> simp_all [Query.same.sameOption]
  simp only [Query.same, Bool.and_eq_true, beq_iff_eq] at h
  exact ⟨h.1.2, h.2, hoption _ _ h.1.1.1, hoption _ _ h.1.1.2⟩

theorem Query.covers_of_same [LawfulF64 F] {q q' : Query F} (h : q.same q' = true) (t : F) :
    q.covers t = q'.covers t := by
  have hoption : ∀ (le : F → Bool) (a b : Option F),
      (∀ x y, F64.eq x y = true → le x = le y) → Query.same.sameOption a b = true →
        a.all le = b.all le := by
    intro le a b hle hab
    cases a with
    | none =>
      cases b with
      | none => rfl
      | some y => exact absurd hab Bool.false_ne_true
    | some x =>
      cases b with
      | none => exact absurd hab Bool.false_ne_true
      | some y => exact hle x y hab
  simp only [Query.same, Bool.and_eq_true] at h
  rw [Query.covers, Query.covers,
    hoption _ _ _ (fun x y hxy => (LawfulF64.le_of_eq x y t hxy).1) h.1.1.1,
    hoption _ _ _ (fun x y hxy => (LawfulF64.le_of_eq x y t hxy).2) h.1.1.2]

/-- What is shown for a query is shown for one like it. -/
theorem Shows.same [LawfulF64 F] {c : Index F} {q q' : Query F} {v : View F}
    (h : Shows path f c q v) (hq : q.same q' = true) (name : String) :
    Shows path f c q' { v with name } := by
  obtain ⟨hchannels, hpoints, hstart, hstop⟩ := Query.eq_of_same hq
  cases h with
  | first name₀ h₁ h₂ hs =>
    have heq : q = q' := by
      cases q
      cases q'
      simp_all
    subst heq
    exact .first name h₁ h₂ hs
  | rows name₀ =>
    have hselected : selectedColumns c.labels q = selectedColumns c.labels q' := by
      rw [selectedColumns, selectedColumns, hchannels]
    have hcovered : c.covered q = c.covered q' :=
      List.filter_congr fun e _ => Query.covers_of_same hq e.1.2
    have hsize : c.bucketSize q = c.bucketSize q' := by
      rw [Index.bucketSize, Index.bucketSize, hcovered, hselected, bucketCount, bucketCount,
        budget, budget, hpoints]
    have hcolumns : c.rowsColumns f q = c.rowsColumns f q' := by
      rw [Index.rowsColumns, Index.rowsColumns, hsize, hcovered, hselected]
    rw [hselected, hcovered, hcolumns]
    exact .rows name

theorem Shows.cases {c : Index F} {q : Query F} {v : View F} (h : Shows path f c q v) :
    v = c.view v.name (selectedColumns c.labels q) (c.covered q).length (c.rowsColumns f q) ∨
      q.start = none ∧ q.stop = none ∧ ∃ columns, Index.scan path f q = .ok (c, columns) ∧
        v = c.view v.name (selectedColumns c.labels q) c.entries.length columns := by
  cases h with
  | first name h₁ h₂ hs => exact .inr ⟨h₁, h₂, _, hs, rfl⟩
  | rows name => exact .inl rfl

theorem Caches.Of.load [LawfulF64 F] (hs : s.Of codec path f) (hfs : fs path = .ok f) {c : Index F}
    (h : contents path f = .ok c) (writable : Bool) (name : String) (query : Query F) :
    ∃ v, (LogView.load fs codec writable s path name query).1 = .ok v ∧ v.name = name ∧
      Shows path f c query.normal v := by
  obtain ⟨⟨i, s'⟩, hindex⟩ := index_total fs codec h s writable name query.normal
  have hof := (hs.found (fun _ => rfl) hindex).2 rfl
  have hc : ({ i with views := [] } : Index F) = c := Except.ok.inj (hof.contents.symm.trans h)
  rw [LogView.load]
  simp only [hfs, hindex]
  cases hfind : i.views.find? fun e => e.1.same query.normal with
  | some e =>
    have hshows := hof.views e (List.mem_of_find?_eq_some hfind)
    rw [hc] at hshows
    have hsame := List.find?_some (p := fun e : Query F × View F => e.1.same query.normal) hfind
    exact ⟨_, rfl, rfl, hshows.same hsame name⟩
  | none =>
    dsimp only
    rw [Index.rowsView_eq hof.holds]
    exact ⟨_, rfl, rfl, hc ▸ .rows name⟩

theorem Caches.Of.next [LawfulF64 F] (hk : codec.Keeps kept) (hf : ∀ x ∈ f.numbers, kept x)
    (hs : s.Of codec path f) (hfs : fs path = .ok f) (writable : Bool) (p name : String)
    (query : Query F) : (LogView.load fs codec writable s p name query).2.Of codec path f := by
  rw [LogView.load]
  cases hlog : fs p with
  | error e => exact hs
  | ok f' =>
    have hfile : p = path → f' = f := by
      rintro rfl
      exact Except.ok.inj (hlog.symm.trans hfs)
    dsimp only
    cases hindex : s.index fs codec writable p f' name query.normal with
    | error e => exact hs
    | ok r =>
      obtain ⟨i, s'⟩ := r
      obtain ⟨hpath, hof⟩ := hs.found hfile hindex
      have hs' := hs.index hk hf hfile hindex
      dsimp only
      cases i.views.find? fun e => e.1.same query.normal with
      | some e => exact hs'
      | none =>
        dsimp only
        cases hview : i.rowsView f' name query.normal with
        | error e => exact hs'
        | ok view =>
          have hremembered : i.path = path → (i.remember query.normal view).Of path f := by
            intro hip
            have hp : p = path := hpath.symm.trans hip
            obtain rfl := hfile hp
            rw [Index.rowsView_eq (hof hp).holds] at hview
            obtain rfl := Except.ok.inj hview
            exact (hof hp).remember name query.normal
          refine ⟨fun i' hi' hip => ?_, ?_⟩
          · obtain rfl := Option.some.inj hi'
            exact hremembered hip
          · dsimp only
            split_ifs
            · exact hs'.persist hk hf hremembered writable
            · exact hs'.disk

/-- Alone, a query without a range is answered by the first scan, which is remembered. -/
theorem load_empty (codec : Codec F J) (hfs : fs path = .ok f) {c : Index F}
    (h : contents path f = .ok c) (writable : Bool) (name : String) (query : Query F)
    (hstart : query.start = none) (hstop : query.stop = none) :
    ∃ columns, Index.scan path f query.normal = .ok (c, columns) ∧
      let view := c.view name (selectedColumns c.labels query.normal) c.entries.length columns
      let i : Index F := { c with views := [(query.normal.whole, view)] }
      LogView.load fs codec writable (.empty : Caches F J) path name query =
        (.ok view, ⟨some i, i.persist fs codec writable fun _ => none⟩) := by
  obtain ⟨columns, hscan, hbuild⟩ := build_of_ok h name query.normal
  have hsame : query.normal.whole.same query.normal = true := by
    simp [Query.same, Query.whole, Query.normal, Query.same.sameOption, hstart, hstop]
  have hindex : (Caches.empty : Caches F J).index fs codec writable path f name query.normal =
      (Index.build path f name query.normal >>= fun i =>
        .ok (i, ⟨some i, i.persist fs codec writable fun _ => none⟩)) := rfl
  refine ⟨columns, hscan, ?_⟩
  rw [LogView.load]
  simp only [hfs, hindex, hbuild, except_ok_bind, List.find?_cons, hsame]
  rfl

/-- The answer of an index that remembers no view. -/
def reread (path : String) (f : File) (name : String) (query : Query F) :
    Except String (View F) := do
  let c ← contents path f
  c.rowsView f name query.normal

/-- A view but for its columns. -/
def View.frame (v : View F) : View F := { v with columns := [] }

def Step.Leaves (path : String) (f : File) : Step F → Prop
  | .load fs _ _ _ _ => fs path = .ok f
  | _ => True

theorem Caches.Of.step [LawfulF64 F] (hk : codec.Keeps kept) (hf : ∀ x ∈ f.numbers, kept x)
    (hs : s.Of codec path f) {step : Step F} (hstep : step.Leaves path f) :
    (s.step codec step).Of codec path f := by
  cases step with
  | load fs writable p name query => exact hs.next hk hf hstep writable p name query
  | restart => exact ⟨(fun i hi => nomatch hi), hs.disk⟩
  | lose p =>
    refine ⟨hs.memory, fun json hjson => ?_⟩
    dsimp only [Caches.step] at hjson
    split_ifs at hjson
    · exact nomatch hjson
    · exact hs.disk json hjson

theorem Caches.Of.run [LawfulF64 F] (hk : codec.Keeps kept) (hf : ∀ x ∈ f.numbers, kept x)
    (hs : s.Of codec path f) {steps : List (Step F)} (h : ∀ step ∈ steps, step.Leaves path f) :
    (steps.foldl (Caches.step codec) s).Of codec path f := by
  induction steps generalizing s with
  | nil => exact hs
  | cons step steps ih =>
    exact ih (hs.step hk hf (h step List.mem_cons_self))
      fun step' hs' => h step' (List.mem_cons_of_mem _ hs')

theorem Caches.Of.load_error (hs : s.Of codec path f) (hfs : fs path = .ok f) {e : String}
    (h : contents (F := F) path f = .error e) (writable : Bool) (name : String) (query : Query F) :
    (LogView.load fs codec writable s path name query).1 = .error e := by
  rw [LogView.load]
  simp only [hfs, hs.index_error h]

theorem Index.covered_of_unranged (c : Index F) {q : Query F} (hstart : q.start = none)
    (hstop : q.stop = none) : c.covered q = c.entries.zipIdx := by
  have hwhole : q.whole = q := by
    cases q
    simp_all [Query.whole]
  rw [← hwhole, c.covered_whole]

def plainCodec : Codec F (ℕ × Index F) := ⟨fun version i => some (version, i), some⟩

omit [F64 F] in
theorem plainCodec_keeps (kept : F → Prop) : plainCodec.Keeps kept := by
  rintro version i json - h
  rw [← Option.some.inj h]
  rfl

/-- **What was asked before matters only to the columns of a sample.** A query with a range, or of
few rows, is answered as if nothing had been asked before; of any other, the columns are those of
the first scan or of the rows read again, and the rest is the same. -/
theorem view_of_history [LawfulF64 F] (hk : codec.Keeps kept) (hf : ∀ x ∈ f.numbers, kept x)
    (steps : List (Step F)) (hsteps : ∀ step ∈ steps, step.Leaves path f) (hfs : fs path = .ok f)
    (writable : Bool) (name : String) (query : Query F) :
    let s : Caches F J := steps.foldl (Caches.step codec) .empty
    let answer := (load fs codec writable s path name query).1
    let alone := (load fs codec writable (.empty : Caches F J) path name query).1
    (query.start.isSome ∨ query.stop.isSome ∨ f.timedRows F ≤ fullDetailRows →
      answer = alone) ∧
    (answer = alone ∨ answer = reread path f name query) ∧
    View.frame <$> answer = View.frame <$> alone := by
  intro s answer alone
  have hs : s.Of codec path f := (caches_of_empty codec path f).run hk hf hsteps
  have hempty : (Caches.empty : Caches F J).Of codec path f := caches_of_empty codec path f
  cases h : contents (F := F) path f with
  | error e =>
    have heq : answer = alone :=
      (hs.load_error hfs h writable name query).trans
        (hempty.load_error hfs h writable name query).symm
    exact ⟨fun _ => heq, .inl heq, by rw [heq]⟩
  | ok c =>
    obtain ⟨v, hv, hname, hshows⟩ := hs.load hfs h writable name query
    have hreread : reread path f name query = .ok (c.view name
        (selectedColumns c.labels query.normal) (c.covered query.normal).length
        (c.rowsColumns f query.normal)) := by
      rw [reread, h]
      exact Index.rowsView_eq (holds_of_contents h) name query.normal
    have hanswer : answer = .ok v := hv
    by_cases hrange : query.start = none ∧ query.stop = none
    · obtain ⟨columns, hscan, halone⟩ :=
        load_empty codec hfs h writable name query hrange.1 hrange.2
      have halone : alone = .ok _ := congrArg Prod.fst halone
      have hcovered := c.covered_of_unranged (q := query.normal) hrange.1 hrange.2
      rcases hshows.cases with hrows | ⟨-, -, columns', hscan', hfirst⟩
      · rw [hname] at hrows
        refine ⟨fun hfew => ?_, .inr ?_, ?_⟩
        · have hlength : c.entries.length ≤ fullDetailRows := by
            rw [length_entries h]
            simpa [hrange.1, hrange.2] using hfew
          have hwhole : query.normal.whole = query.normal := by
            rw [Query.whole, Query.normal, hrange.1, hrange.2]
          have hcolumns := (scanned hscan).full hlength
          rw [← c.rowsColumns_full hlength f query.normal, hwhole] at hcolumns
          rw [hanswer, halone, hrows, hcolumns, hcovered, List.length_zipIdx]
        · rw [hanswer, hreread, hrows]
        · rw [hanswer, halone, hrows, hcovered, List.length_zipIdx]
          rfl
      · rw [hname] at hfirst
        obtain ⟨-, rfl⟩ := Prod.mk.inj (Except.ok.inj (hscan'.symm.trans hscan))
        have heq : answer = alone := by rw [hanswer, halone, hfirst]
        exact ⟨fun _ => heq, .inl heq, by rw [heq]⟩
    · obtain ⟨v', hv', hname', hshows'⟩ := hempty.load hfs h writable name query
      have hrows : ∀ u, u.name = name → Shows path f c query.normal u → u = c.view name
          (selectedColumns c.labels query.normal) (c.covered query.normal).length
          (c.rowsColumns f query.normal) := by
        intro u hu hshows
        rcases hshows.cases with hrows | ⟨hstart, hstop, -⟩
        · rwa [hu] at hrows
        · exact absurd ⟨hstart, hstop⟩ hrange
      have heq : answer = alone := by
        rw [hanswer, hrows v hname hshows, ← hrows v' hname' hshows']
        exact hv'.symm
      exact ⟨fun _ => heq, .inl heq, by rw [heq]⟩

/-- Two rows, after a restart. -/
theorem view_of_history_restart :
    let fs : String → Except String File := fun _ => .ok (equalRows 2 0)
    let s : Caches XRat (ℕ × Index XRat) := ([.load fs true "two.msl" "two.msl" (timesOnly 200),
      .restart] : List (Step XRat)).foldl (Caches.step plainCodec) .empty
    (load fs plainCodec true s "two.msl" "two.msl" (timesOnly 100)).1 =
      (load fs plainCodec true .empty "two.msl" "two.msl" (timesOnly 100)).1 := by
  intro fs s
  have hsteps : ∀ step ∈ ([.load fs true "two.msl" "two.msl" (timesOnly 200), .restart] :
      List (Step XRat)), step.Leaves "two.msl" (equalRows 2 0) := by
    intro step hstep
    simp only [List.mem_cons, List.not_mem_nil, or_false] at hstep
    rcases hstep with rfl | rfl
    · rfl
    · trivial
  have h := view_of_history (plainCodec_keeps fun _ => True) (fun _ _ => trivial) _ hsteps
    (show fs "two.msl" = .ok (equalRows 2 0) from rfl) true "two.msl" (timesOnly 100)
  exact h.1 (.inr (.inr (by rw [timedRows_equalRows]; decide)))

/-- An index that is of the log and has no view of the query reads the rows again. -/
theorem load_warm (codec : Codec F J) (hfs : fs path = .ok f) {i : Index F} (hi : i.isOf path f = true)
    (hcache : s.cache = some i) (writable : Bool) (name : String) (query : Query F)
    (hviews : i.views.find? (fun e => e.1.same query.normal) = none) :
    (LogView.load fs codec writable s path name query).1 = i.rowsView f name query.normal := by
  have hindex : s.index fs codec writable path f name query.normal = .ok (i, s) := by
    rw [Caches.index, hcache]
    simp only [Option.filter_some, hi, if_true]
  rw [LogView.load]
  simp only [hfs, hindex, hviews]
  cases i.rowsView f name query.normal <;> rfl

/-! ## A log of many rows -/

theorem keepOf_ne_nil {g : List (Sample F)} (h : g ≠ []) : keepOf g ≠ [] := by
  obtain ⟨front, s, rfl⟩ := List.eq_nil_or_concat g |>.resolve_left h
  rw [keepOf, List.concat_eq_append, collect_concat]
  exact Bucket.keep_ne_nil _

theorem mem_of_mem_keepOf {g : List (Sample F)} {x : Sample F} (h : x ∈ keepOf g) : x ∈ g := by
  have hsamples : ∀ b ∈ collect g, ∀ x ∈ b.samples, x ∈ g := by
    clear h
    induction g using List.reverseRecOn with
    | nil => exact fun b hb => by cases hb
    | append_singleton g s ih =>
      intro b hb y hy
      rw [collect_concat] at hb
      obtain rfl := Option.some.inj hb
      cases hcollect : collect g with
      | none =>
        rw [hcollect] at hy
        exact List.mem_append_right g (List.mem_singleton.mpr (Bucket.mem_samples_new hy))
      | some b' =>
        rw [hcollect] at hy
        rcases Bucket.mem_samples_add hy with rfl | hy
        · exact List.mem_append_right g List.mem_cons_self
        · exact List.mem_append_left _ (ih b' hcollect y hy)
  rw [keepOf] at h
  cases hcollect : collect g with
  | none =>
    rw [hcollect] at h
    cases h
  | some b =>
    rw [hcollect] at h
    exact hsamples b hcollect x (Bucket.mem_keep h)

theorem length_le_flatMap_keepOf (groups : List (List (Sample F))) (h : ∀ g ∈ groups, g ≠ []) :
    groups.length ≤ (groups.flatMap keepOf).length := by
  induction groups with
  | nil => exact le_rfl
  | cons g groups ih =>
    have hfirst := List.length_pos_of_ne_nil (keepOf_ne_nil (h g List.mem_cons_self))
    have hrest := ih fun g' hg' => h g' (List.mem_cons_of_mem _ hg')
    rw [List.length_cons, List.flatMap_cons, List.length_append]
    omega

theorem chunksFrom_lengths {α : Type} (size : ℕ) (xs chunk : List α) (h : chunk.length < size) :
    ∀ c ∈ chunksFrom size xs chunk, c ≠ [] ∧ c.length ≤ size := by
  induction xs generalizing chunk with
  | nil =>
    intro c hc
    cases chunk with
    | nil => exact nomatch hc
    | cons x chunk =>
      rw [List.mem_singleton.mp hc]
      exact ⟨List.cons_ne_nil _ _, h.le⟩
  | cons x xs ih =>
    rw [chunksFrom.eq_def]
    dsimp only
    split_ifs with hfull
    · intro c hc
      rcases List.mem_cons.mp hc with rfl | hc
      · refine ⟨List.append_ne_nil_of_right_ne_nil _ (List.cons_ne_nil _ _), ?_⟩
        rw [List.length_append, List.length_singleton, hfull]
      · exact ih [] (by rw [List.length_nil]; omega) c hc
    · refine ih (chunk ++ [x]) ?_
      rw [List.length_append, List.length_singleton]
      omega

theorem length_flatten_le {α : Type} {size : ℕ} {l : List (List α)} (h : ∀ c ∈ l, c.length ≤ size) :
    l.flatten.length ≤ l.length * size := by
  induction l with
  | nil => exact Nat.zero_le _
  | cons c l ih =>
    have hfirst := h c List.mem_cons_self
    have hrest := ih fun c' hc' => h c' (List.mem_cons_of_mem _ hc')
    rw [List.flatten_cons, List.length_append, List.length_cons, Nat.succ_mul]
    omega

theorem Index.rowsColumns_eq (i : Index F) (f : File) (query : Query F) :
    i.rowsColumns f query = pushAll
      (((chunks (i.bucketSize query) (i.covered query)).map fun chunk => chunk.map fun e =>
        (⟨e.2, valuesAt f (selectedColumns i.labels query) e.1⟩ : Sample F)).flatMap keepOf)
      (List.replicate (selectedColumns i.labels query).length []) := by
  have hbucket : ∀ chunk : List ((ℕ × F) × ℕ), bucketOf f (selectedColumns i.labels query) chunk =
      collect (chunk.map fun e =>
        (⟨e.2, valuesAt f (selectedColumns i.labels query) e.1⟩ : Sample F)) := by
    intro chunk
    rw [bucketOf, collect, List.foldl_map]
  rw [Index.rowsColumns]
  generalize List.replicate (selectedColumns i.labels query).length ([] : List (Option F)) = columns
  generalize chunks (i.bucketSize query) (i.covered query) = l
  induction l generalizing columns with
  | nil => rfl
  | cons chunk l ih =>
    rw [List.foldl_cons, ih, hbucket, finishBucket_collect, List.map_cons, List.flatMap_cons,
      pushAll, pushAll, pushAll, List.foldl_append]

section EqualRows

variable {n m : ℕ}

theorem selected_timesOnly (points : ℕ) :
    selectedColumns (equalHeader n m).labels (timesOnly points) = [0] := by
  have hchannels : selectedColumns (equalHeader n m).labels (timesOnly points) =
      selectedColumns ["Time", "RPM"] (⟨none, none, some "", none⟩ : Query XRat) := rfl
  rw [hchannels]
  decide +kernel

theorem bucketCount_timesOnly :
    bucketCount (timesOnly 100) (selectedColumns (equalHeader n m).labels (timesOnly 100)) = 50 := by
  rw [selected_timesOnly]
  decide

/-- Read again, many rows are in many buckets. -/
theorem rowsColumns_many (hn : fullDetailRows < n) {c : Index XRat}
    (h : contents "many.msl" (equalRows n m) = .ok c) :
    ∃ kept : List (Sample XRat), (∀ s ∈ kept, s.values.length = 1) ∧ 3 ≤ kept.length ∧
      c.rowsColumns (equalRows n m) (timesOnly 100) = pushAll kept (List.replicate 1 []) := by
  obtain ⟨s, hs, -⟩ := contents_equalRows n m "many.msl"
  have hc := Except.ok.inj (h.symm.trans hs)
  have hlength : c.entries.length = n := by
    rw [length_entries h, timedRows_equalRows]
  have hlabels : c.labels = (equalHeader n m).labels := by rw [hc]; rfl
  have hselected : selectedColumns c.labels (timesOnly 100) = [0] := by
    rw [hlabels, selected_timesOnly]
  have hcovered := c.covered_of_unranged (q := timesOnly 100) rfl rfl
  have hsize : c.bucketSize (timesOnly 100) = (n + 50 - 1) / 50 := by
    rw [Index.bucketSize, hcovered, List.length_zipIdx, hlength, if_pos hn, hlabels,
      bucketCount_timesOnly, divCeil]
  have hrows := c.rowsColumns_eq (equalRows n m) (timesOnly 100)
  rw [hselected] at hrows
  rw [fullDetailRows] at hn
  have hchunks := chunksFrom_lengths (c.bucketSize (timesOnly 100)) (c.covered (timesOnly 100)) []
    (by rw [hsize, List.length_nil]; omega)
  refine ⟨_, ?_, ?_, hrows⟩
  · intro x hx
    obtain ⟨g, hg, hx⟩ := List.mem_flatMap.mp hx
    obtain ⟨chunk, hchunk, rfl⟩ := List.mem_map.mp hg
    obtain ⟨e, he, rfl⟩ := List.mem_map.mp (mem_of_mem_keepOf hx)
    obtain ⟨row, -, hread, -⟩ :=
      Index.holds_covered (holds_of_contents h) _ e (mem_of_mem_chunks hchunk he)
    dsimp only
    rw [valuesAt, hread]
    exact length_parseColumns row (List.cons_ne_nil _ _) _
  · have hall := length_flatten_le fun chunk hchunk => (hchunks chunk hchunk).2
    rw [chunksFrom_flatten, List.nil_append, hcovered, List.length_zipIdx, hlength, hsize] at hall
    refine le_trans ?_ (length_le_flatMap_keepOf _ fun g hg => ?_)
    · rw [List.length_map, chunks, hsize, hcovered]
      by_contra hfew
      have hle := Nat.mul_le_mul_right ((n + 50 - 1) / 50) (Nat.lt_succ_iff.mp (Nat.not_le.mp hfew))
      omega
    · obtain ⟨chunk, hchunk, rfl⟩ := List.mem_map.mp hg
      exact fun hnil => (hchunks chunk hchunk).1 (List.map_eq_nil_iff.mp hnil)

/-- At first, they are in one bucket. -/
theorem firstColumns_many (hn : fullDetailRows < n) (hm : 98 * n ≤ m) {c : Index XRat}
    {columns : List (List (Option XRat))}
    (h : Index.scan "many.msl" (equalRows n m) (timesOnly 100) = .ok (c, columns)) :
    ∃ kept : List (Sample XRat), (∀ s ∈ kept, s.values.length = 1) ∧ kept.length ≤ 2 ∧
      columns = pushAll kept (List.replicate 1 []) := by
  obtain ⟨s₀, hs₀, hoffsets⟩ := contents_equalRows n m "many.msl"
  have hcontents := (scanned h).contents
  have hc := Except.ok.inj (hcontents.symm.trans hs₀)
  have hlength : c.entries.length = n := by
    rw [length_entries hcontents, timedRows_equalRows]
  have hlabels : c.labels = (equalHeader n m).labels := by rw [hc]; rfl
  have hselected : selectedColumns c.labels (timesOnly 100) = [0] := by
    rw [hlabels, selected_timesOnly]
  obtain ⟨header, s, groups, current, hheader, heq, hbuckets, -, hcolumns⟩ := exists_buckets h
  rw [hselected] at hbuckets hcolumns
  have hheader := Except.ok.inj (hheader.symm.trans (readHeaders_equalRows n m))
  have hstart : header.dataStart = 17 := by rw [hheader]; rfl
  have hbytes : 2 * n ≤ bucketBytes (equalRows n m) header (timesOnly 100) := by
    rw [bucketBytes, hheader, bucketCount_timesOnly, length_equalRows, divCeil]
    refine le_trans ?_ (Nat.le_max_left _ _)
    change 2 * n ≤ (17 + 2 * n + m - 17 + 50 - 1) / 50
    omega
  have hentries : s.entries = s₀.entries := congrArg Index.entries (heq.symm.trans hc)
  have hzero : s.bucketId = 0 := by
    rcases hbuckets.place with hid | ⟨e, he, hid⟩
    · exact hid
    · have hlt := hoffsets e (hentries ▸ he)
      rw [hid]
      exact Nat.div_eq_of_lt (by omega)
  have hcount := hbuckets.count
  rw [hzero] at hcount
  obtain rfl := List.length_eq_zero_iff.mp (Nat.le_zero.mp hcount)
  have hsamples := hbuckets.samples
  rw [List.flatten_nil, List.nil_append] at hsamples
  have hproper : ∀ x ∈ current, Sample.Proper 1 x := by
    intro x hx
    obtain ⟨line, -, hrow⟩ := List.mem_filterMap.mp
      (List.mem_of_getElem? (mem_sampleRows.mp (hsamples ▸ hx)))
    exact rowOf_proper (List.cons_ne_nil 0 []) hrow x.row
  refine ⟨keepOf current, fun x hx => (hproper x (mem_of_mem_keepOf hx)).length,
    length_keepOf_le hproper, ?_⟩
  rw [hcolumns (by rw [hlength]; exact hn), List.nil_append, List.flatMap_singleton]
  rfl

/-- The two samples differ. -/
theorem columns_differ (hn : fullDetailRows < n) (hm : 98 * n ≤ m) {c : Index XRat}
    {columns : List (List (Option XRat))}
    (h : Index.scan "many.msl" (equalRows n m) (timesOnly 100) = .ok (c, columns)) :
    c.rowsColumns (equalRows n m) (timesOnly 100) ≠ columns := by
  obtain ⟨kept, hkept, hle, hfirst⟩ := firstColumns_many hn hm h
  obtain ⟨kept', hkept', hge, hrows⟩ := rowsColumns_many hn (scanned h).contents
  intro heq
  have hstart : List.replicate 1 ([] : List (Option XRat)) = (List.range 1).map fun _ => [] := rfl
  rw [hfirst, hrows, hstart, pushAll_eq hkept, pushAll_eq hkept'] at heq
  have hhead := congrArg (fun columns => (columns.headD []).length) heq
  simp only [List.range_one, List.map_cons, List.map_nil, List.headD_cons, List.nil_append,
    List.length_map] at hhead
  omega

end EqualRows

/-- **A sample depends on what was asked before.** -/
theorem sample_depends : ¬ ∀ (path : String) (f : File) (steps : List (Step XRat))
    (fs : String → Except String File) (writable : Bool) (name : String) (query : Query XRat),
    (∀ step ∈ steps, step.Leaves path f) → fs path = .ok f →
    (load fs plainCodec writable (steps.foldl (Caches.step plainCodec) .empty) path name query).1 =
      (load fs plainCodec writable .empty path name query).1 := by
  have hmany : ∀ n m : ℕ, fullDetailRows < n → 98 * n ≤ m →
      let fs : String → Except String File := fun _ => .ok (equalRows n m)
      let s : Caches XRat (ℕ × Index XRat) := ([.load fs true "many.msl" "many.msl"
        (timesOnly 200)] : List (Step XRat)).foldl (Caches.step plainCodec) .empty
      (load fs plainCodec true s "many.msl" "many.msl" (timesOnly 100)).1 ≠
        (load fs plainCodec true .empty "many.msl" "many.msl" (timesOnly 100)).1 := by
    intro n m hn hm fs s heq
    obtain ⟨s₀, hs₀, -⟩ := contents_equalRows n m "many.msl"
    have hfs : fs "many.msl" = .ok (equalRows n m) := rfl
    obtain ⟨columns₁, -, hfirst⟩ := load_empty plainCodec hfs hs₀ true "many.msl"
      (timesOnly 200) rfl rfl
    obtain ⟨columns, hscan, halone⟩ := load_empty plainCodec hfs hs₀ true "many.msl"
      (timesOnly 100) rfl rfl
    have hcache := congrArg (fun r => r.2.cache) hfirst
    have hsame : (timesOnly 200).normal.whole.same (timesOnly 100).normal = false := by
      decide +kernel
    have hnormal : (timesOnly 100).normal = timesOnly 100 := by
      simp [Query.normal, timesOnly, budget]
    have hwarm := load_warm (s := s) plainCodec hfs (by simp [Index.isOf, Header.index, equalRows]) hcache true
      "many.msl" (timesOnly 100) (by simp [hsame])
    have hrows := Index.rowsView_eq (holds_of_contents hs₀) "many.msl" (timesOnly 100).normal
    have hcolumns := congrArg View.columns
      (Except.ok.inj (hrows.symm.trans (hwarm.symm.trans (heq.trans (congrArg Prod.fst halone)))))
    rw [hnormal] at hscan hcolumns
    exact columns_differ hn hm hscan hcolumns
  intro h
  exact hmany 5001 490098 (by decide) (by decide) (h "many.msl" (equalRows 5001 490098) _ _ true
    "many.msl" (timesOnly 100) (fun step hstep => by rw [List.mem_singleton.mp hstep]; rfl) rfl)

end RustyTune.Server.LogView
