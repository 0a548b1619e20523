import Mathlib.Data.List.AList

/-! # Hash collections

`std`'s `HashMap` and `HashSet` seed their hashers at random, so the order in which they yield
their entries is not a function of their contents. The model keeps a `HashSet` as a list without
repetition (`HSet`) and a `HashMap` as an association list (`HMap`, Mathlib's `AList`), and sends
every iteration over either through a `HashOrder`: a reordering of the entries that may be any
permutation. A theorem stated for every `HashOrder` holds for every order a run can meet.

* `HMap.modify` is `entry(k).or_default()` followed by an update of the value;
* `lookup_extend`: after `a.extend(b)` the values of `b` win.

Two inputs that hold the same items, in any order and any number of times, are `SameUpTo` one
another; a map is observed only through its lookups, so two maps with the same lookups stand for
one `HashMap`. -/

namespace RumaStateRes.Core.Collections

/-- The order in which a hash collection yields its entries: some permutation of them. -/
structure HashOrder where
  arrange : {α : Type} → List α → List α
  perm : ∀ {α : Type} (l : List α), (arrange l).Perm l

namespace HashOrder

/-- The order that yields the entries as they are stored. -/
def stored : HashOrder := ⟨fun l => l, fun l => List.Perm.refl l⟩

/-- The order that yields the entries backwards. -/
def reversed : HashOrder := ⟨List.reverse, List.reverse_perm⟩

variable (H : HashOrder) {α : Type} {l : List α}

@[simp] theorem mem_arrange {a : α} : a ∈ H.arrange l ↔ a ∈ l := (H.perm l).mem_iff

theorem nodup_arrange (h : l.Nodup) : (H.arrange l).Nodup := (H.perm l).nodup_iff.mpr h

@[simp] theorem length_arrange : (H.arrange l).length = l.length := (H.perm l).length_eq

end HashOrder

/-- A `HashSet`: its elements, each once. -/
structure HSet (α : Type) where
  elems : List α
  nodup : elems.Nodup

namespace HSet

variable {α : Type}

instance : Membership α (HSet α) := ⟨fun s a => a ∈ s.elems⟩

instance : EmptyCollection (HSet α) := ⟨⟨[], List.nodup_nil⟩⟩

theorem mem_def {a : α} {s : HSet α} : a ∈ s ↔ a ∈ s.elems := Iff.rfl

@[simp] theorem not_mem_empty (a : α) : a ∉ (∅ : HSet α) := List.not_mem_nil a

@[simp] theorem elems_empty : (∅ : HSet α).elems = [] := rfl

theorem elems_eq_nil_iff {s : HSet α} : s.elems = [] ↔ ∀ a, a ∉ s := List.eq_nil_iff_forall_not_mem

variable [DecidableEq α]

instance (a : α) (s : HSet α) : Decidable (a ∈ s) := inferInstanceAs (Decidable (a ∈ s.elems))

/-- `HashSet::insert`. -/
def insert (s : HSet α) (a : α) : HSet α :=
  if h : a ∈ s.elems then s else ⟨a :: s.elems, List.nodup_cons.mpr ⟨h, s.nodup⟩⟩

/-- `HashSet::remove`. -/
def erase (s : HSet α) (a : α) : HSet α := ⟨s.elems.erase a, s.nodup.erase a⟩

/-- `collect::<HashSet<_>>()`. -/
def ofList (l : List α) : HSet α := l.foldl insert ∅

@[simp] theorem mem_insert {s : HSet α} {a b : α} : b ∈ s.insert a ↔ b = a ∨ b ∈ s := by
  unfold insert
  split_ifs with h
  · exact ⟨Or.inr, fun h' => h'.elim (fun e => e ▸ h) id⟩
  · exact List.mem_cons

@[simp] theorem mem_erase {s : HSet α} {a b : α} : b ∈ s.erase a ↔ b ≠ a ∧ b ∈ s :=
  s.nodup.mem_erase_iff

theorem mem_foldl_insert (l : List α) (s : HSet α) (b : α) :
    b ∈ l.foldl insert s ↔ b ∈ l ∨ b ∈ s := by
  induction l generalizing s with
  | nil => simp
  | cons a l ih => rw [List.foldl_cons, ih, mem_insert, List.mem_cons, or_left_comm, or_assoc]

@[simp] theorem mem_ofList {l : List α} {b : α} : b ∈ ofList l ↔ b ∈ l := by
  simp [ofList, mem_foldl_insert]

end HSet

/-- A `HashMap`. -/
abbrev HMap (K V : Type) := AList (fun _ : K => V)

namespace HMap

variable {K V : Type} [DecidableEq K]

/-- `map.entry(k).or_default()` with default `d`, then `f` applied to the value in place. -/
def modify (m : HMap K V) (k : K) (d : V) (f : V → V) : HMap K V :=
  m.insert k (f ((m.lookup k).getD d))

theorem lookup_modify (m : HMap K V) (k k' : K) (d : V) (f : V → V) :
    (m.modify k d f).lookup k' = if k' = k then some (f ((m.lookup k).getD d)) else m.lookup k' := by
  unfold modify
  split_ifs with h
  · subst h; exact AList.lookup_insert m
  · exact AList.lookup_insert_ne h

theorem mem_modify {m : HMap K V} {k k' : K} {d : V} {f : V → V} :
    k' ∈ m.modify k d f ↔ k' = k ∨ k' ∈ m := AList.mem_insert _

/-- Insert every entry of `l`, in order. -/
def insertAll (m : HMap K V) (l : List (Σ _ : K, V)) : HMap K V := l.foldl (fun m e => m.insert e.1 e.2) m

theorem lookup_insertAll (l : List (Σ _ : K, V)) (hl : l.NodupKeys) (m : HMap K V) (k : K) :
    (m.insertAll l).lookup k = (l.dlookup k).or (m.lookup k) := by
  induction l generalizing m with
  | nil => rfl
  | cons e l ih =>
    obtain ⟨a, b⟩ := e
    rw [List.nodupKeys_cons] at hl
    simp only [insertAll, List.foldl_cons] at ih ⊢
    rw [ih hl.2]
    by_cases h : k = a
    · subst h
      simp [List.dlookup_eq_none.mpr hl.1, AList.lookup_insert, List.dlookup_cons_eq]
    · simp [List.dlookup_cons_ne l ⟨a, b⟩ h, AList.lookup_insert_ne h]

/-- `a.extend(b)`: the entries of `b`, in the order the hash map yields them, inserted into `a`. -/
def extend (H : HashOrder) (m other : HMap K V) : HMap K V := m.insertAll (H.arrange other.entries)

theorem lookup_extend (H : HashOrder) (m other : HMap K V) (k : K) :
    (m.extend H other).lookup k = (other.lookup k).or (m.lookup k) := by
  unfold extend
  have hnd := (List.perm_nodupKeys (H.perm other.entries)).mpr other.nodupKeys
  rw [lookup_insertAll _ hnd, List.perm_dlookup k hnd other.nodupKeys (H.perm _)]
  rfl

omit [DecidableEq K] in
theorem entries_eq_nil_iff {m : HMap K V} : m.entries = [] ↔ ∀ k, k ∉ m :=
  ⟨fun h k hk => by
    have hk' : k ∈ m.entries.keys := AList.mem_keys.mpr hk
    simp [h] at hk',
    fun h => List.eq_nil_iff_forall_not_mem.mpr fun e he => h e.1 (AList.mem_keys.mp (List.mem_keys_of_mem he))⟩

theorem lookup_insert_congr {m m' : HMap K V} (h : ∀ k, m.lookup k = m'.lookup k) (a : K) (b : V) (k : K) :
    (m.insert a b).lookup k = (m'.insert a b).lookup k := by
  by_cases hk : k = a
  · subst hk
    simp only [AList.lookup_insert]
  · simp only [AList.lookup_insert_ne hk, h]

end HMap

/-- Two lists that hold the same items up to `r`, in any order and any number of times. -/
def SameUpTo {α : Type} (r : α → α → Prop) (l l' : List α) : Prop :=
  (∀ a ∈ l, ∃ a' ∈ l', r a a') ∧ ∀ a' ∈ l', ∃ a ∈ l, r a a'

namespace SameUpTo

variable {α : Type} {r : α → α → Prop} {l l' : List α}

theorem forall_iff (h : SameUpTo r l l') (P : α → Prop) (hP : ∀ a a', r a a' → (P a ↔ P a')) :
    (∀ a ∈ l, P a) ↔ ∀ a' ∈ l', P a' :=
  ⟨fun hl a' ha' => let ⟨a, ha, hr⟩ := h.2 a' ha'; (hP a a' hr).mp (hl a ha),
    fun hl a ha => let ⟨a', ha', hr⟩ := h.1 a ha; (hP a a' hr).mpr (hl a' ha')⟩

theorem exists_iff (h : SameUpTo r l l') (P : α → Prop) (hP : ∀ a a', r a a' → (P a ↔ P a')) :
    (∃ a ∈ l, P a) ↔ ∃ a' ∈ l', P a' :=
  ⟨fun ⟨a, ha, hPa⟩ => let ⟨a', ha', hr⟩ := h.1 a ha; ⟨a', ha', (hP a a' hr).mp hPa⟩,
    fun ⟨a', ha', hPa⟩ => let ⟨a, ha, hr⟩ := h.2 a' ha'; ⟨a, ha, (hP a a' hr).mpr hPa⟩⟩

theorem ne_nil_iff (h : SameUpTo r l l') : l ≠ [] ↔ l' ≠ [] :=
  ⟨fun hl => let ⟨a, ha⟩ := List.exists_mem_of_ne_nil l hl; let ⟨_, ha', _⟩ := h.1 a ha; List.ne_nil_of_mem ha',
    fun hl => let ⟨a', ha'⟩ := List.exists_mem_of_ne_nil l' hl; let ⟨_, ha, _⟩ := h.2 a' ha'; List.ne_nil_of_mem ha⟩

end SameUpTo

end RumaStateRes.Core.Collections
