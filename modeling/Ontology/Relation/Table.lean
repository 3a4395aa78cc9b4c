/-
Sets and tables.

* `ListSet`: members, none twice; `insert`, with `mem_insert` and
  `toList_insert`.
* `Table`: values by keys, none with two; `get?` looks a key up, and `alter`
  replaces its value or gives it a first one; `get?_alter`, `mem_entries`,
  `alter_eq_self`, `alter_alter`.
* `Table.members`, `Table.addTo`, `Table.extendAll`: tables whose values are
  sets.
-/
namespace Ontology

/-! ### Sets -/

/-- Members, none twice, in the order in which they came. -/
@[ext] structure ListSet (α : Type) where
  toList : List α
  nodup : toList.Nodup

namespace ListSet

variable {α : Type}

/-- No members. -/
def empty : ListSet α := ⟨[], .nil⟩

instance : Membership α (ListSet α) := ⟨fun s a => a ∈ s.toList⟩

@[simp] theorem mem_toList {s : ListSet α} {a : α} : a ∈ s.toList ↔ a ∈ s :=
  .rfl

@[simp] theorem not_mem_empty {a : α} : a ∉ (empty : ListSet α) :=
  List.not_mem_nil

variable [DecidableEq α]

instance (a : α) (s : ListSet α) : Decidable (a ∈ s) :=
  inferInstanceAs (Decidable (a ∈ s.toList))

/-- A further member, if it is new. -/
def insert (s : ListSet α) (a : α) : ListSet α :=
  if h : a ∈ s then s
  else
    { toList := s.toList ++ [a]
      nodup := by
        refine List.nodup_append.mpr ⟨s.nodup, by simp, fun b hb c hc => ?_⟩
        rintro rfl
        exact h (List.mem_singleton.mp hc ▸ hb) }

@[simp] theorem mem_insert {s : ListSet α} {a b : α} :
    b ∈ s.insert a ↔ b ∈ s ∨ b = a := by
  unfold insert
  split
  · next h => exact ⟨.inl, fun hb => hb.elim id (· ▸ h)⟩
  · change b ∈ s.toList ++ [a] ↔ _
    simp

/-- Members are inserted one by one. -/
theorem mem_foldl_insert {s : ListSet α} {as : List α} {b : α} :
    b ∈ as.foldl .insert s ↔ b ∈ s ∨ b ∈ as := by
  induction as generalizing s with
  | nil => simp
  | cons a as ih => rw [List.foldl_cons, ih, mem_insert, List.mem_cons, or_assoc]

/-- A new member comes last. -/
theorem toList_insert {s : ListSet α} {a : α} :
    (s.insert a).toList = if a ∈ s then s.toList else s.toList ++ [a] := by
  unfold insert
  split <;> rfl

end ListSet

/-! ### Tables -/

/-- Values by keys, none with two, in the order in which the keys came. -/
structure Table (κ ν : Type) where
  entries : List (κ × ν)
  nodup : (entries.map (·.1)).Nodup

namespace Table

variable {κ ν : Type}

/-- No values. -/
def empty : Table κ ν := ⟨[], .nil⟩

/-- The keys that have a value. -/
def keys (t : Table κ ν) : List κ := t.entries.map (·.1)

variable [DecidableEq κ]

/-- The value of a key. -/
def get? (t : Table κ ν) (k : κ) : Option ν :=
  (t.entries.find? fun e => e.1 = k).map (·.2)

/-- Entries with another value of one key. A new key comes last. -/
def alterEntries (k : κ) (f : Option ν → ν) : List (κ × ν) → List (κ × ν)
  | [] => [(k, f none)]
  | e :: es =>
    if e.1 = k then (k, f (some e.2)) :: es else e :: alterEntries k f es

theorem mem_keys_alterEntries {k j : κ} {f : Option ν → ν}
    {es : List (κ × ν)} :
    j ∈ (alterEntries k f es).map (·.1) ↔ j ∈ es.map (·.1) ∨ j = k := by
  induction es with
  | nil => simp [alterEntries]
  | cons e es ih =>
    rw [alterEntries]
    split
    · next h => grind
    · rw [List.map_cons, List.mem_cons, ih, List.map_cons, List.mem_cons,
        or_assoc]

theorem nodup_keys_alterEntries {k : κ} {f : Option ν → ν}
    {es : List (κ × ν)} (h : (es.map (·.1)).Nodup) :
    ((alterEntries k f es).map (·.1)).Nodup := by
  induction es with
  | nil => simp [alterEntries]
  | cons e es ih =>
    rw [List.map_cons, List.nodup_cons] at h
    rw [alterEntries]
    split
    · next he => exact List.nodup_cons.mpr ⟨he ▸ h.1, h.2⟩
    · next he =>
      refine List.nodup_cons.mpr ⟨fun hmem => ?_, ih h.2⟩
      exact (mem_keys_alterEntries.mp hmem).elim h.1 he

/-- The table with another value of one key. -/
def alter (t : Table κ ν) (k : κ) (f : Option ν → ν) : Table κ ν :=
  ⟨alterEntries k f t.entries, nodup_keys_alterEntries t.nodup⟩

/-! ### Look-ups -/

@[simp] theorem get?_empty {k : κ} : (empty : Table κ ν).get? k = none := rfl

/-- Other keys keep their values. -/
theorem get?_alter {t : Table κ ν} {k j : κ} {f : Option ν → ν} :
    (t.alter k f).get? j = if j = k then some (f (t.get? k)) else t.get? j := by
  obtain ⟨es, h⟩ := t
  simp only [alter, get?]
  clear h
  induction es with
  | nil => grind [alterEntries]
  | cons e es ih => grind [alterEntries]

/-- A value that is replaced by itself leaves the table as it was. -/
theorem alter_eq_self {t : Table κ ν} {k : κ} {f : Option ν → ν} {v : ν}
    (hk : t.get? k = some v) (hf : f (some v) = v) : t.alter k f = t := by
  obtain ⟨es, h⟩ := t
  simp only [alter, get?, mk.injEq] at hk ⊢
  clear h
  induction es with
  | nil => simp at hk
  | cons e es ih => grind [alterEntries]

/-- A value that is replaced twice is replaced once. -/
theorem alter_alter {t : Table κ ν} {k : κ} {f g : Option ν → ν} :
    (t.alter k f).alter k g = t.alter k fun v => g (some (f v)) := by
  obtain ⟨es, h⟩ := t
  simp only [alter, mk.injEq]
  clear h
  induction es with
  | nil => simp [alterEntries]
  | cons e es ih => grind [alterEntries]

/-- The entries are the keys with their values. -/
theorem mem_entries {t : Table κ ν} {k : κ} {v : ν} :
    (k, v) ∈ t.entries ↔ t.get? k = some v := by
  obtain ⟨es, h⟩ := t
  simp only [get?]
  induction es with
  | nil => simp
  | cons e es ih =>
    rw [List.map_cons, List.nodup_cons] at h
    have ih := ih h.2
    by_cases he : e.1 = k
    · have hk : (k, v) ∉ es := fun hmem =>
        h.1 (he ▸ List.mem_map.mpr ⟨_, hmem, rfl⟩)
      obtain ⟨j, w⟩ := e
      obtain rfl : j = k := he
      simp [hk, eq_comm]
    · have hne : (k, v) ≠ e := fun h => he (h ▸ rfl)
      simp [he, hne, ih]

theorem mem_keys {t : Table κ ν} {k : κ} : k ∈ t.keys ↔ (t.get? k).isSome := by
  simp only [keys, List.mem_map, Option.isSome_iff_exists, ← mem_entries]
  exact ⟨fun ⟨e, he, hk⟩ => ⟨e.2, hk ▸ he⟩, fun ⟨v, hv⟩ => ⟨_, hv, rfl⟩⟩

/-! ### Tables of sets -/

variable {α : Type}

/-- The set of a key. -/
def members (t : Table κ (ListSet α)) (k : κ) : ListSet α :=
  (t.get? k).getD .empty

@[simp] theorem members_empty {k : κ} :
    (empty : Table κ (ListSet α)).members k = .empty := rfl

theorem mem_members {t : Table κ (ListSet α)} {k : κ} {a : α} :
    a ∈ t.members k ↔ ∃ s, t.get? k = some s ∧ a ∈ s := by
  unfold members
  cases t.get? k <;> simp

/-- A set with members has a key. -/
theorem mem_keys_of_mem_members {t : Table κ (ListSet α)} {k : κ} {a : α}
    (h : a ∈ t.members k) : k ∈ t.keys := by
  obtain ⟨s, hs, -⟩ := mem_members.mp h
  exact mem_keys.mpr (Option.isSome_of_eq_some hs)

variable [DecidableEq α]

/-- The table with a further member of one set. -/
def addTo (t : Table κ (ListSet α)) (k : κ) (a : α) : Table κ (ListSet α) :=
  t.alter k fun s => (s.getD .empty).insert a

/-- Other sets stay as they are. -/
theorem members_addTo {t : Table κ (ListSet α)} {k j : κ} {a : α} :
    (t.addTo k a).members j =
      if j = k then (t.members k).insert a else t.members j := by
  simp only [members, addTo, get?_alter]
  split <;> rfl

/-- Other sets keep their members. -/
@[simp] theorem mem_members_addTo {t : Table κ (ListSet α)} {k j : κ}
    {a b : α} :
    b ∈ (t.addTo k a).members j ↔ b ∈ t.members j ∨ j = k ∧ b = a := by
  rw [members_addTo]
  split
  · next h => simp [h]
  · next h => simp [h]

/-- The table with further members of one set. -/
def extend (t : Table κ (ListSet α)) (k : κ) (as : List α) :
    Table κ (ListSet α) :=
  t.alter k fun s => as.foldl .insert (s.getD .empty)

/-- The table with further members of several sets. -/
def extendAll (t : Table κ (ListSet α)) (rows : List (κ × List α)) :
    Table κ (ListSet α) :=
  rows.foldl (fun t row => t.extend row.1 row.2) t

/-- Other sets keep their members. -/
theorem mem_members_extend {t : Table κ (ListSet α)} {k j : κ} {as : List α}
    {b : α} :
    b ∈ (t.extend k as).members j ↔ b ∈ t.members j ∨ j = k ∧ b ∈ as := by
  simp only [members, extend, get?_alter]
  split
  · next h => simp [h, ListSet.mem_foldl_insert]
  · next h => simp [h]

/-- The sets grow by the members in their rows. -/
@[simp] theorem mem_members_extendAll {t : Table κ (ListSet α)}
    {rows : List (κ × List α)} {j : κ} {b : α} :
    b ∈ (t.extendAll rows).members j ↔
      b ∈ t.members j ∨ ∃ as, (j, as) ∈ rows ∧ b ∈ as := by
  unfold extendAll
  induction rows generalizing t with
  | nil => simp
  | cons row rows ih =>
    obtain ⟨k, as⟩ := row
    rw [List.foldl_cons, ih, mem_members_extend]
    grind

end Table

end Ontology
