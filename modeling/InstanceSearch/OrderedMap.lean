/-
  Finite maps that remember the order in which their keys arrived.

  THE TYPE
    An `OrderedMap κ α` is a list of entries in which no key stands twice.  The order is part of the
    value: substitutions are shown in the order in which their variables were bound, candidates are
    tried in the order in which they were found.

  TWO WAYS TO WRITE
    * `insert`       a key that is present keeps its place and gets the new value;
    * `insertIfNew`  a key that is present keeps its place and its value.
    In both, a new key goes to the end.  `find?_insert` and `find?_insertIfNew` say what a reader sees
    afterwards, `keys_insert` and `keys_insertIfNew` where the keys stand.
-/

namespace InstanceSearch

/-- A list of entries in which no key stands twice. -/
structure OrderedMap (κ α : Type) where
  entries : List (κ × α)
  nodup : (entries.map Prod.fst).Nodup

namespace OrderedMap

variable {κ α β : Type}

/-! ## Reading -/

/-- The map without entries. -/
def empty : OrderedMap κ α := ⟨[], List.nodup_nil⟩

instance : Inhabited (OrderedMap κ α) := ⟨empty⟩

/-- The keys, in order of arrival. -/
def keys (m : OrderedMap κ α) : List κ := m.entries.map Prod.fst

/-- The values, in the order of their keys. -/
def values (m : OrderedMap κ α) : List α := m.entries.map Prod.snd

/-- The number of entries. -/
def size (m : OrderedMap κ α) : Nat := m.entries.length

def isEmpty (m : OrderedMap κ α) : Bool := m.entries.isEmpty

/-- Two maps with the same entries in the same order are the same map. -/
theorem ext_entries {m n : OrderedMap κ α} (h : m.entries = n.entries) : m = n := by
  cases m; cases n; cases h; rfl

@[simp] theorem nodup_keys (m : OrderedMap κ α) : m.keys.Nodup := m.nodup

@[simp] theorem length_keys (m : OrderedMap κ α) : m.keys.length = m.size := by
  simp [keys, size]

/-- `mapValues f m` = `m` with `f` applied to every value; the keys stay where they are. -/
def mapValues (f : α → β) (m : OrderedMap κ α) : OrderedMap κ β :=
  ⟨m.entries.map fun e => (e.1, f e.2), by simpa [Function.comp_def] using m.nodup⟩

@[simp] theorem keys_mapValues (f : α → β) (m : OrderedMap κ α) : (m.mapValues f).keys = m.keys := by
  simp [keys, mapValues, Function.comp_def]

/-- A key that is missing can be appended. -/
theorem nodup_concat {ks : List κ} {k : κ} (h : ks.Nodup) (hk : k ∉ ks) : (ks ++ [k]).Nodup := by
  refine List.nodup_append.2 ⟨h, by simp, fun a ha b hb => ?_⟩
  rintro rfl
  exact hk (by simpa [List.mem_singleton.1 hb] using ha)

variable [DecidableEq κ]

/-- The value at a key. -/
def find? (m : OrderedMap κ α) (k : κ) : Option α := m.entries.lookup k

def contains (m : OrderedMap κ α) (k : κ) : Bool := m.keys.contains k

@[simp] theorem contains_iff {m : OrderedMap κ α} {k : κ} : m.contains k = true ↔ k ∈ m.keys := by
  simp [contains]

/-- A look-up in a list of entries fails exactly when no entry has the key. -/
theorem lookup_eq_none_iff {es : List (κ × α)} {k : κ} :
    es.lookup k = none ↔ k ∉ es.map Prod.fst := by
  induction es with
  | nil => simp
  | cons e es ih =>
    obtain ⟨j, v⟩ := e
    by_cases h : k = j
    · simp [h]
    · simp [List.lookup_cons, h, ih, beq_eq_false_iff_ne.2 h]

@[simp] theorem find?_eq_none_iff {m : OrderedMap κ α} {k : κ} : m.find? k = none ↔ k ∉ m.keys :=
  lookup_eq_none_iff

/-- Where keys stand once, a look-up finds exactly the entries. -/
theorem lookup_eq_some_iff {es : List (κ × α)} (hn : (es.map Prod.fst).Nodup) {k : κ} {v : α} :
    es.lookup k = some v ↔ (k, v) ∈ es := by
  induction es with
  | nil => simp
  | cons e es ih =>
    obtain ⟨j, w⟩ := e
    simp only [List.map_cons, List.nodup_cons] at hn
    by_cases h : k = j
    · subst h
      have hk : (k, v) ∉ es := fun hm => hn.1 (List.mem_map_of_mem hm)
      simp [hk, eq_comm]
    · simp [List.lookup_cons, h, ih hn.2, beq_eq_false_iff_ne.2 h]

theorem find?_eq_some_iff {m : OrderedMap κ α} {k : κ} {v : α} :
    m.find? k = some v ↔ (k, v) ∈ m.entries :=
  lookup_eq_some_iff m.nodup

/-- What holds of all that is found holds of all entries, and the other way round. -/
theorem forall_find?_iff {m : OrderedMap κ α} {P : κ → α → Prop} :
    (∀ k v, m.find? k = some v → P k v) ↔ ∀ e ∈ m.entries, P e.1 e.2 := by
  constructor
  · intro h e he
    exact h e.1 e.2 (find?_eq_some_iff.2 he)
  · intro h k v hv
    exact h (k, v) (find?_eq_some_iff.1 hv)

/-- Every key finds what it found, with the function applied. -/
@[simp] theorem find?_mapValues (f : α → β) (m : OrderedMap κ α) (k : κ) :
    (m.mapValues f).find? k = (m.find? k).map f := by
  show (m.entries.map fun e => (e.1, f e.2)).lookup k = (m.entries.lookup k).map f
  induction m.entries with
  | nil => rfl
  | cons e es ih =>
    rw [List.map_cons, List.lookup_cons, List.lookup_cons]
    split
    · rfl
    · exact ih

/-! ## Writing -/

/-- `putEntry k v es` = `es` with the value at `k` replaced where it stands, or with a new last entry. -/
def putEntry (k : κ) (v : α) : List (κ × α) → List (κ × α)
  | [] => [(k, v)]
  | e :: es => if e.1 = k then (k, v) :: es else e :: putEntry k v es

theorem map_fst_putEntry (k : κ) (v : α) (es : List (κ × α)) :
    (putEntry k v es).map Prod.fst =
      if k ∈ es.map Prod.fst then es.map Prod.fst else es.map Prod.fst ++ [k] := by
  induction es with
  | nil => simp [putEntry]
  | cons e es ih =>
    by_cases h : e.1 = k
    · simp [putEntry, h]
    · have h' : ¬ k = e.1 := fun hk => h hk.symm
      simp only [putEntry, h, if_false, List.map_cons, ih, List.mem_cons, h', false_or]
      split <;> simp

/-- `m.insert k v` = `m` with `v` at `k`: in place if the key is present, at the end if it is new. -/
def insert (m : OrderedMap κ α) (k : κ) (v : α) : OrderedMap κ α :=
  ⟨putEntry k v m.entries, by
    rw [map_fst_putEntry]
    split
    · exact m.nodup
    · rename_i h
      exact nodup_concat m.nodup h⟩

/-- `m.insertIfNew k v` = `m` where the key is present, else `m` with the entry at the end. -/
def insertIfNew (m : OrderedMap κ α) (k : κ) (v : α) : OrderedMap κ α :=
  if m.contains k then m else m.insert k v

/-- `ofList es` inserts the entries in turn: a repeated key keeps its first place and its last value. -/
def ofList (es : List (κ × α)) : OrderedMap κ α :=
  es.foldl (fun m e => m.insert e.1 e.2) empty

theorem keys_insert (m : OrderedMap κ α) (k : κ) (v : α) :
    (m.insert k v).keys = if k ∈ m.keys then m.keys else m.keys ++ [k] :=
  map_fst_putEntry k v m.entries

theorem lookup_putEntry (k : κ) (v : α) (es : List (κ × α)) (j : κ) :
    (putEntry k v es).lookup j = if j = k then some v else es.lookup j := by
  induction es with
  | nil =>
    by_cases hj : j = k
    · simp [putEntry, hj]
    · simp [putEntry, List.lookup_cons, hj, beq_eq_false_iff_ne.2 hj]
  | cons e es ih =>
    obtain ⟨i, w⟩ := e
    by_cases hi : i = k
    · subst hi
      by_cases hj : j = i
      · simp [putEntry, hj]
      · simp [putEntry, List.lookup_cons, hj, beq_eq_false_iff_ne.2 hj]
    · by_cases hj : j = i
      · subst hj
        simp [putEntry, hi]
      · simp [putEntry, hi, List.lookup_cons, ih, beq_eq_false_iff_ne.2 hj]

/-- **Last write wins**: after `insert` the key has the new value and the others have theirs. -/
@[simp] theorem find?_insert (m : OrderedMap κ α) (k : κ) (v : α) (j : κ) :
    (m.insert k v).find? j = if j = k then some v else m.find? j :=
  lookup_putEntry k v m.entries j

/-- A new key is appended and moves no other entry. -/
theorem entries_insert_of_notMem {m : OrderedMap κ α} {k : κ} (v : α) (h : k ∉ m.keys) :
    (m.insert k v).entries = m.entries ++ [(k, v)] := by
  have go : ∀ es : List (κ × α), k ∉ es.map Prod.fst → putEntry k v es = es ++ [(k, v)] := by
    intro es
    induction es with
    | nil => intro _; rfl
    | cons e es ih =>
      intro he
      simp only [List.map_cons, List.mem_cons, not_or] at he
      have hne : ¬ e.1 = k := fun hk => he.1 hk.symm
      simp [putEntry, hne, ih he.2]
  exact go m.entries h

theorem keys_insertIfNew (m : OrderedMap κ α) (k : κ) (v : α) :
    (m.insertIfNew k v).keys = if k ∈ m.keys then m.keys else m.keys ++ [k] := by
  unfold insertIfNew
  by_cases h : k ∈ m.keys
  · simp [h]
  · simp [h, keys_insert]

/-- **First write wins**: after `insertIfNew` a key that was present keeps its value. -/
theorem find?_insertIfNew (m : OrderedMap κ α) (k : κ) (v : α) (j : κ) :
    (m.insertIfNew k v).find? j = if j = k then some ((m.find? k).getD v) else m.find? j := by
  unfold insertIfNew
  by_cases h : k ∈ m.keys
  · obtain ⟨w, hw⟩ : ∃ w, m.find? k = some w :=
      Option.ne_none_iff_exists'.1 (fun hn => find?_eq_none_iff.1 hn h)
    by_cases hj : j = k
    · simp [h, hj, hw]
    · simp [h, hj]
  · have hn : m.find? k = none := find?_eq_none_iff.2 h
    by_cases hj : j = k
    · simp [h, hj, hn]
    · simp [h, hj]

/-- Entries that are added only where the key is new leave what was found, and find the rest. -/
theorem find?_foldl_insertIfNew (es : List (κ × α)) (m : OrderedMap κ α) (k : κ) :
    (es.foldl (fun m e => m.insertIfNew e.1 e.2) m).find? k = (m.find? k).or (es.lookup k) := by
  induction es generalizing m with
  | nil => exact Option.or_none.symm
  | cons e es ih =>
    rw [List.foldl_cons, ih, find?_insertIfNew, List.lookup_cons]
    by_cases hk : k = e.1
    · rw [if_pos hk, hk, beq_self_eq_true]
      cases m.find? e.1 <;> rfl
    · rw [if_neg hk, beq_eq_false_iff_ne.2 hk]

/-! ## Comparing -/

/-- `m.same n`: the same keys with equal values, whatever their order. -/
def same [BEq α] (m n : OrderedMap κ α) : Bool :=
  m.size == n.size && m.entries.all fun e => (n.find? e.1).any fun v => e.2 == v

end OrderedMap

end InstanceSearch
