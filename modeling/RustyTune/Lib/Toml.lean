import Mathlib.Data.String.Basic
import Mathlib.Tactic.Common
import RustyTune.Lib.F64

/-!
# Values of a configuration file

* `Value`, `Table`: what a TOML file stands for. `Table.get?`, `Table.insert`: a table is a map, kept in
  the order of its keys.
* `Table.merge`, `Value.merge`: the entries of one table over those of another, at every depth;
  **`get?_merge`**: what it has below a key.
* `Serde`: a type whose values are read and written as TOML. `Table.ofFields`: a record, its fields
  `present` or `optional`; `field`, `fieldOption`: reading one.
* **`field_merge`**, **`fieldOption_merge`**: a field of a record that is merged over another is read as
  it was; where an optional one is absent, the other's is read.
-/

namespace RustyTune.Toml

mutual

/-- A value; an integer is an `i64`. -/
inductive Value (F : Type)
  | string (s : String)
  | integer (i : Int64)
  | float (x : F)
  | boolean (b : Bool)
  | datetime (s : String)
  | array (items : List (Value F))
  | table (t : Table F)

inductive Table (F : Type)
  | nil
  | cons (key : String) (value : Value F) (rest : Table F)

end

variable {F α : Type} {k key : String} {v : Value F}

namespace Table

def get? : Table F → String → Option (Value F)
  | nil, _ => none
  | cons k v t, key => if k = key then some v else t.get? key

/-- The keys stand in their order. -/
def insert : Table F → String → Value F → Table F
  | nil, key, value => cons key value nil
  | cons k v t, key, value =>
    if key = k then cons key value t
    else if key < k then cons key value (cons k v t)
    else cons k v (t.insert key value)

def keys : Table F → List String
  | nil => []
  | cons k _ t => k :: t.keys

def Ordered (t : Table F) : Prop := t.keys.Pairwise (· < ·)

theorem get?_insert : ∀ t : Table F,
    (t.insert k v).get? key = if k = key then some v else t.get? key
  | nil => rfl
  | cons k' v' t => by
    rw [insert]
    by_cases hk : k = k'
    · subst hk
      rw [if_pos rfl, get?, get?]
      by_cases hkey : k = key <;> simp [hkey]
    · rw [if_neg hk]
      by_cases hlt : k < k'
      · rw [if_pos hlt, get?]
      · rw [if_neg hlt, get?, get?, get?_insert t]
        by_cases hkey : k' = key
        · subst hkey
          simp [hk]
        · simp [hkey]

theorem mem_keys_insert {x : String} : ∀ {t : Table F}, x ∈ (t.insert k v).keys → x = k ∨ x ∈ t.keys
  | nil, hx => by simpa [insert, keys] using hx
  | cons k' v' t, hx => by
    rw [insert] at hx
    split_ifs at hx with hk hlt
    · exact (List.mem_cons.mp hx).imp_right (List.mem_cons_of_mem k')
    · exact List.mem_cons.mp hx
    · rcases List.mem_cons.mp hx with rfl | hx
      · exact .inr List.mem_cons_self
      · exact (mem_keys_insert hx).imp_right (List.mem_cons_of_mem k')

theorem Ordered.insert : ∀ {t : Table F}, t.Ordered → (t.insert k v).Ordered
  | nil, _ => List.pairwise_singleton _ _
  | cons k' v' t, ht => by
    obtain ⟨hhead, htail⟩ := List.pairwise_cons.mp ht
    rw [Table.insert]
    split_ifs with hk hlt
    · subst hk
      exact ht
    · refine List.pairwise_cons.mpr ⟨fun x hx => ?_, ht⟩
      rcases List.mem_cons.mp hx with rfl | hx
      · exact hlt
      · exact hlt.trans (hhead x hx)
    · refine List.pairwise_cons.mpr ⟨fun x hx => ?_, Ordered.insert htail⟩
      rcases mem_keys_insert hx with rfl | hx
      · exact lt_of_le_of_ne (not_lt.mp hlt) (Ne.symm hk)
      · exact hhead x hx

theorem get?_eq_none : ∀ {t : Table F}, key ∉ t.keys → t.get? key = none
  | nil, _ => rfl
  | cons k' v' t, h => by
    have hk : k' ≠ key := fun he => h (he ▸ List.mem_cons_self)
    rw [get?, if_neg hk]
    exact get?_eq_none fun hmem => h (List.mem_cons_of_mem k' hmem)

end Table

/-! ## Merging -/

mutual

/-- Tables are merged, of anything else the second is taken. -/
def Value.merge (base : Value F) : Value F → Value F
  | .table b =>
    match base with
    | .table a => .table (Table.merge a b)
    | _ => .table b
  | overlay => overlay

def Table.merge (a : Table F) : Table F → Table F
  | .nil => a
  | .cons k v b =>
    Table.merge (a.insert k (match a.get? k with
      | some old => Value.merge old v
      | none => v)) b

end

theorem Table.get?_merge : ∀ {b : Table F}, b.Ordered → ∀ a : Table F,
    (a.merge b).get? key = match b.get? key with
      | some v => some (match a.get? key with
        | some old => old.merge v
        | none => v)
      | none => a.get? key
  | .nil, _, a => by rw [Table.merge, get?]
  | .cons k v b, hb, a => by
    obtain ⟨hhead, htail⟩ := List.pairwise_cons.mp hb
    rw [Table.merge, get?_merge htail, get?]
    by_cases hk : k = key
    · subst hk
      have hnone : b.get? k = none := get?_eq_none fun hmem => lt_irrefl k (hhead k hmem)
      rw [hnone, get?_insert, if_pos rfl, if_pos rfl]
    · rw [get?_insert, if_neg hk, if_neg hk]

/-! ## Records -/

/-- A type whose values are written as TOML values and read back. Some cannot be written. -/
class Serde (F α : Type) where
  encode : α → Option (Value F)
  decode : Value F → Option α
  decode_encode {a : α} {v : Value F} : encode a = some v → decode v = some a
  /-- It is not written as a table. -/
  merge_encode {a : α} {v : Value F} (old : Value F) : encode a = some v → old.merge v = v

/-- What a field comes to: `none` if it cannot be written, `some none` if it is left out. -/
abbrev FieldValue (F : Type) := Option (Option (Value F))

variable [Serde F α]

def present (a : α) : FieldValue F := (Serde.encode a).map some

def optional : Option α → FieldValue F
  | none => some none
  | some a => present a

/-- The table with the fields that are not left out. -/
def Table.ofFields : List (String × FieldValue F) → Option (Table F)
  | [] => some .nil
  | (_, none) :: _ => none
  | (_, some none) :: fields => ofFields fields
  | (k, some (some v)) :: fields => (ofFields fields).map (·.insert k v)

def record (fields : List (String × FieldValue F)) : FieldValue F :=
  (Table.ofFields fields).map fun t => some (.table t)

/-- The fields of a value that is read as a record with these: by name, or by place. -/
def Value.fields (names : List String) : Value F → Option (String → Option (Value F))
  | .table t => some t.get?
  | .array items =>
    if items.length ≤ names.length then some fun name => items[names.idxOf name]? else none
  | _ => none

def field (get : String → Option (Value F)) (name : String) (missing : α) : Option α :=
  match get name with
  | none => some missing
  | some v => Serde.decode v

/-- A field that is a record. -/
def fieldRecord {β : Type} (read : Value F → Option β) (get : String → Option (Value F))
    (name : String) (missing : β) : Option β :=
  match get name with
  | none => some missing
  | some v => read v

def fieldOption (get : String → Option (Value F)) (name : String) (missing : Option α) :
    Option (Option α) :=
  match get name with
  | none => some missing
  | some v => (Serde.decode v).map some

theorem Table.ordered_ofFields : ∀ (fields : List (String × FieldValue F)) {t : Table F},
    ofFields fields = some t → t.Ordered
  | [], _, h => by
    obtain rfl := Option.some.inj h
    exact .nil
  | (_, none) :: _, _, h => nomatch h
  | (_, some none) :: fields, _, h => ordered_ofFields fields h
  | (k, some (some v)) :: fields, t, h => by
    obtain ⟨t', ht', rfl⟩ := Option.map_eq_some_iff.mp h
    exact (ordered_ofFields fields ht').insert

theorem Table.get?_ofFields_of_notMem : ∀ (fields : List (String × FieldValue F)) {t : Table F},
    ofFields fields = some t → key ∉ fields.map Prod.fst → t.get? key = none
  | [], _, h, _ => by
    obtain rfl := Option.some.inj h
    rfl
  | (_, none) :: _, _, h, _ => nomatch h
  | (k, some none) :: fields, _, h, hkey =>
    get?_ofFields_of_notMem fields h fun hmem => hkey (List.mem_cons_of_mem k hmem)
  | (k, some (some v)) :: fields, t, h, hkey => by
    obtain ⟨t', ht', rfl⟩ := Option.map_eq_some_iff.mp h
    have hne : k ≠ key := fun he => hkey (he ▸ List.mem_cons_self)
    rw [get?_insert, if_neg hne]
    exact get?_ofFields_of_notMem fields ht' fun hmem => hkey (List.mem_cons_of_mem k hmem)

/-- **The table has each field.** -/
theorem Table.get?_ofFields : ∀ (fields : List (String × FieldValue F)) {t : Table F} {f : FieldValue F},
    ofFields fields = some t → (fields.map Prod.fst).Nodup → (key, f) ∈ fields →
    f = some (t.get? key)
  | [], _, _, _, _, hmem => absurd hmem List.not_mem_nil
  | (_, none) :: _, _, _, h, _, _ => nomatch h
  | (k, some none) :: fields, t, f, h, hnodup, hmem => by
    obtain ⟨hk, hnodup⟩ := List.nodup_cons.mp hnodup
    rcases List.mem_cons.mp hmem with heq | hmem
    · obtain ⟨rfl, rfl⟩ := Prod.mk.inj heq
      rw [get?_ofFields_of_notMem fields h hk]
    · exact get?_ofFields fields h hnodup hmem
  | (k, some (some v)) :: fields, t, f, h, hnodup, hmem => by
    obtain ⟨hk, hnodup⟩ := List.nodup_cons.mp hnodup
    obtain ⟨t', ht', rfl⟩ := Option.map_eq_some_iff.mp h
    rcases List.mem_cons.mp hmem with heq | hmem
    · obtain ⟨rfl, rfl⟩ := Prod.mk.inj heq
      rw [get?_insert, if_pos rfl]
    · have hne : k ≠ key := fun he => hk (he ▸ List.mem_map.mpr ⟨_, hmem, rfl⟩)
      rw [get?_insert, if_neg hne]
      exact get?_ofFields fields ht' hnodup hmem

theorem Table.isSome_ofFields : ∀ fields : List (String × FieldValue F),
    (ofFields fields).isSome = fields.all fun f => f.2.isSome
  | [] => rfl
  | (_, none) :: _ => rfl
  | (_, some none) :: fields => isSome_ofFields fields
  | (k, some (some v)) :: fields => by
    rw [ofFields, Option.isSome_map, isSome_ofFields fields]
    rfl

omit [Serde F α] in
theorem isSome_record (fields : List (String × FieldValue F)) :
    (record fields).isSome = fields.all fun f => f.2.isSome := by
  rw [record, Option.isSome_map, Table.isSome_ofFields]

theorem isSome_present (a : α) : (present a : FieldValue F).isSome = (Serde.encode a : Option (Value F)).isSome :=
  Option.isSome_map

section Merge

variable {below above : List (String × FieldValue F)} {a b : Table F}

theorem field_merge (hb : Table.ofFields above = some b) (hnodup : (above.map Prod.fst).Nodup)
    {x missing : α} (hx : (key, present x) ∈ above) :
    field (a.merge b).get? key missing = some x := by
  obtain ⟨v, hv, he⟩ := Option.map_eq_some_iff.mp (Table.get?_ofFields above hb hnodup hx)
  rw [field, Table.get?_merge (Table.ordered_ofFields above hb), ← he]
  cases a.get? key with
  | none => exact Serde.decode_encode hv
  | some old =>
    simp only [Serde.merge_encode old hv]
    exact Serde.decode_encode hv

theorem fieldOption_merge (ha : Table.ofFields below = some a) (hb : Table.ofFields above = some b)
    (hbelow : (below.map Prod.fst).Nodup) (habove : (above.map Prod.fst).Nodup)
    {x y missing : Option α} (hx : (key, optional x) ∈ above) (hy : (key, optional y) ∈ below) :
    fieldOption (a.merge b).get? key missing = some (x.or (y.or missing)) := by
  have hx := Table.get?_ofFields above hb habove hx
  have hy := Table.get?_ofFields below ha hbelow hy
  rw [fieldOption, Table.get?_merge (Table.ordered_ofFields above hb)]
  cases x with
  | some x =>
    obtain ⟨v, hv, he⟩ := Option.map_eq_some_iff.mp hx
    rw [← he]
    cases a.get? key with
    | none => simp [Serde.decode_encode hv]
    | some old => simp [Serde.merge_encode old hv, Serde.decode_encode hv]
  | none =>
    rw [← Option.some.inj hx]
    cases y with
    | some y =>
      obtain ⟨v, hv, he⟩ := Option.map_eq_some_iff.mp hy
      simp [← he, Serde.decode_encode hv]
    | none => simp [← Option.some.inj hy]

omit [Serde F α] in
theorem fieldRecord_merge (ha : Table.ofFields below = some a) (hb : Table.ofFields above = some b)
    (hbelow : (below.map Prod.fst).Nodup) (habove : (above.map Prod.fst).Nodup)
    {x y : List (String × FieldValue F)} (hx : (key, record x) ∈ above) (hy : (key, record y) ∈ below)
    {read : Value F → Option α} {z missing : α}
    (hread : ∀ c d, Table.ofFields y = some c → Table.ofFields x = some d →
      read (.table (c.merge d)) = some z) :
    fieldRecord read (a.merge b).get? key missing = some z := by
  obtain ⟨d, hd, he⟩ := Option.map_eq_some_iff.mp (Table.get?_ofFields above hb habove hx)
  obtain ⟨c, hc, hf⟩ := Option.map_eq_some_iff.mp (Table.get?_ofFields below ha hbelow hy)
  rw [fieldRecord, Table.get?_merge (Table.ordered_ofFields above hb), ← he, ← hf]
  exact hread c d hc hd

end Merge

/-! ## The types of fields -/

instance : Serde F Bool where
  encode b := some (.boolean b)
  decode
    | .boolean b => some b
    | _ => none
  decode_encode h := by
    obtain rfl := Option.some.inj h
    rfl
  merge_encode _ h := by
    obtain rfl := Option.some.inj h
    rfl

instance : Serde F String where
  encode s := some (.string s)
  decode
    | .string s => some s
    | _ => none
  decode_encode h := by
    obtain rfl := Option.some.inj h
    rfl
  merge_encode _ h := by
    obtain rfl := Option.some.inj h
    rfl

instance [F64 F] : Serde F F where
  encode x := some (.float x)
  decode
    | .float x => some x
    | .integer i => some (F64.ofInt i.toInt)
    | _ => none
  decode_encode h := by
    obtain rfl := Option.some.inj h
    rfl
  merge_encode _ h := by
    obtain rfl := Option.some.inj h
    rfl

/-- A number that an `i64` holds. -/
def encodeNat (n : ℕ) : Option (Value F) :=
  if n < 2 ^ 63 then some (.integer (Int64.ofNat n)) else none

def decodeNat (bound : ℕ) : Value F → Option ℕ
  | .integer i => if 0 ≤ i.toInt ∧ i.toInt < bound then some i.toInt.toNat else none
  | _ => none

theorem encodeNat_eq_some {n : ℕ} :
    encodeNat n = some v ↔ n < 2 ^ 63 ∧ v = .integer (Int64.ofNat n) := by
  rw [encodeNat]
  split_ifs with h
  · rw [Option.some.injEq, eq_comm, and_iff_right h]
  · exact iff_of_false nofun fun hn => h hn.1

theorem decodeNat_encodeNat {n bound : ℕ} (h : encodeNat n = some v) (hn : n < bound) :
    decodeNat bound v = some n := by
  obtain ⟨hlt, rfl⟩ := encodeNat_eq_some.mp h
  rw [decodeNat, Int64.toInt_ofNat_of_lt hlt, if_pos (by omega), Int.toNat_natCast]

theorem merge_encodeNat {n : ℕ} (old : Value F) (h : encodeNat n = some v) : old.merge v = v := by
  obtain ⟨-, rfl⟩ := encodeNat_eq_some.mp h
  rfl

instance : Serde F UInt16 where
  encode n := encodeNat n.toNat
  decode v := (decodeNat (2 ^ 16) v).map UInt16.ofNat
  decode_encode {n _} h := by rw [decodeNat_encodeNat h n.toNat_lt, Option.map_some, UInt16.ofNat_toNat]
  merge_encode := merge_encodeNat

instance : Serde F UInt32 where
  encode n := encodeNat n.toNat
  decode v := (decodeNat (2 ^ 32) v).map UInt32.ofNat
  decode_encode {n _} h := by rw [decodeNat_encodeNat h n.toNat_lt, Option.map_some, UInt32.ofNat_toNat]
  merge_encode := merge_encodeNat

/-- What does not fit in an `i64` cannot be written. -/
instance : Serde F UInt64 where
  encode n := encodeNat n.toNat
  decode v := (decodeNat (2 ^ 64) v).map UInt64.ofNat
  decode_encode {n _} h := by rw [decodeNat_encodeNat h n.toNat_lt, Option.map_some, UInt64.ofNat_toNat]
  merge_encode := merge_encodeNat

section Written

@[simp] theorem isSome_encode_bool (b : Bool) :
    (Serde.encode b : Option (Value F)).isSome = true := rfl

@[simp] theorem isSome_encode_string (s : String) :
    (Serde.encode s : Option (Value F)).isSome = true := rfl

@[simp] theorem isSome_encode_float [F64 F] (x : F) :
    (Serde.encode x : Option (Value F)).isSome = true := rfl

theorem isSome_encodeNat (n : ℕ) : (encodeNat n : Option (Value F)).isSome = decide (n < 2 ^ 63) := by
  rw [encodeNat]
  split_ifs with h
  · exact (decide_eq_true h).symm
  · exact (decide_eq_false h).symm

@[simp] theorem isSome_encode_u16 (n : UInt16) :
    (Serde.encode n : Option (Value F)).isSome = true := by
  have := n.toNat_lt
  rw [Serde.encode, instSerdeUInt16, isSome_encodeNat, decide_eq_true_iff]
  omega

@[simp] theorem isSome_encode_u32 (n : UInt32) :
    (Serde.encode n : Option (Value F)).isSome = true := by
  have := n.toNat_lt
  rw [Serde.encode, instSerdeUInt32, isSome_encodeNat, decide_eq_true_iff]
  omega

@[simp] theorem isSome_encode_u64 (n : UInt64) :
    (Serde.encode n : Option (Value F)).isSome = decide (n.toNat < 2 ^ 63) := isSome_encodeNat _

end Written

end RustyTune.Toml
