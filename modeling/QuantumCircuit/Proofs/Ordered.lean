import Mathlib.Data.List.Perm.Subperm
import Mathlib.Data.List.Sort
import QuantumCircuit.Ordered.Map

/-! Ordered maps and sets as collections: which keys a map has, and its entries
as a list that an insertion or a removal permutes. -/
namespace QuantumCircuit

/-! ## Entries -/

theorem rank_eq_iff {κ : Type} [Ranked κ] {a b : κ} : rank a = rank b ↔ a = b :=
  ⟨Ranked.rank_injective, fun h => h ▸ rfl⟩

/-- Keys above `k` are not dropped with `k`. -/
theorem filter_ne_of_lt {κ ν : Type} [Ranked κ] [DecidableEq κ] {k : κ} {l : List (κ × ν)}
    (h : ∀ e ∈ l, rank k < rank e.1) : l.filter (·.1 ≠ k) = l := by
  rw [List.filter_eq_self]
  intro e he
  have hlt := h e he
  simp only [ne_eq, decide_not, Bool.not_eq_true', decide_eq_false_iff_not]
  rintro rfl
  exact Nat.lt_irrefl _ hlt

theorem putAscending_perm {κ ν : Type} [Ranked κ] [DecidableEq κ] {k : κ} {v : ν}
    {l : List (κ × ν)} (h : l.Pairwise (rank ·.1 < rank ·.1)) :
    (putAscending k v l).Perm ((k, v) :: l.filter (·.1 ≠ k)) := by
  induction l with
  | nil => exact .refl _
  | cons e rest ih =>
    rw [List.pairwise_cons] at h
    unfold putAscending
    split
    · next hk =>
      rw [filter_ne_of_lt]
      intro f hf
      rcases List.mem_cons.1 hf with rfl | hf
      · exact hk
      · exact Nat.lt_trans hk (h.1 f hf)
    · split
      · next hk =>
        have hkey : e.1 = k := (rank_eq_iff.1 hk).symm
        rw [List.filter_cons_of_neg (by simp [hkey]),
          filter_ne_of_lt fun f hf => hk ▸ h.1 f hf]
      · next hk =>
        have hkey : e.1 ≠ k := fun he => hk (by rw [he])
        rw [List.filter_cons_of_pos (by simpa using hkey)]
        exact ((ih h.2).cons e).trans (.swap _ _ _)

theorem entries_perm_of_findEntry {κ ν : Type} [Ranked κ] [DecidableEq κ] {k : κ}
    {l : List (κ × ν)} (h : l.Pairwise (rank ·.1 < rank ·.1)) :
    l.Perm (((findEntry k l).map (k, ·)).toList ++ l.filter (·.1 ≠ k)) := by
  induction l with
  | nil => exact .refl _
  | cons e rest ih =>
    rw [List.pairwise_cons] at h
    by_cases hk : e.1 = k
    · subst hk
      rw [List.filter_cons_of_neg (by simp), filter_ne_of_lt h.1]
      simp [findEntry]
    · have hne : ¬ rank k = rank e.1 := fun he => hk (rank_eq_iff.1 he).symm
      rw [List.filter_cons_of_pos (by simpa using hk), findEntry, if_neg hne]
      exact ((ih h.2).cons e).trans List.perm_middle.symm

theorem isSome_findEntry {κ ν : Type} [Ranked κ] {k : κ} {l : List (κ × ν)} :
    (findEntry k l).isSome ↔ k ∈ l.map (·.1) := by
  induction l with
  | nil => simp [findEntry]
  | cons e rest ih =>
    rw [findEntry, List.map_cons, List.mem_cons, ← ih]
    by_cases h : rank k = rank e.1
    · simp [rank_eq_iff.1 h]
    · have hne : ¬ k = e.1 := fun he => h (by rw [he])
      simp [h, hne]

/-- In an ascending list nothing is above the last element. -/
theorem le_getLast?_of_ascending {α : Type} {f : α → Nat} {l : List α}
    (h : l.Pairwise (f · < f ·)) {a : α} (ha : a ∈ l) : ∃ m, l.getLast? = some m ∧ f a ≤ f m := by
  induction l generalizing a with
  | nil => cases ha
  | cons b rest ih =>
    rw [List.pairwise_cons] at h
    cases rest with
    | nil => exact ⟨b, rfl, by rw [List.mem_singleton.1 ha]⟩
    | cons c rest =>
      rw [List.getLast?_cons_cons]
      rcases List.mem_cons.1 ha with rfl | ha
      · obtain ⟨m, hm, hle⟩ := ih h.2 List.mem_cons_self
        have hlt := h.1 c List.mem_cons_self
        exact ⟨m, hm, by omega⟩
      · exact ih h.2 ha

/-- The value of the last pair with a key. -/
def lastValue? {κ ν : Type} [DecidableEq κ] (k : κ) (l : List (κ × ν)) : Option ν :=
  ((l.filter (·.1 = k)).getLast?).map (·.2)

theorem lastValue?_cons {κ ν : Type} [DecidableEq κ] (k : κ) (e : κ × ν) (l : List (κ × ν)) :
    lastValue? k (e :: l) = (lastValue? k l).or (if k = e.1 then some e.2 else none) := by
  rw [lastValue?, lastValue?]
  by_cases hk : e.1 = k
  · rw [List.filter_cons_of_pos (by simpa using hk), List.getLast?_cons, if_pos hk.symm]
    cases (l.filter (·.1 = k)).getLast? with
    | none => rfl
    | some last => rfl
  · rw [List.filter_cons_of_neg (by simpa using hk), if_neg (Ne.symm hk), Option.or_none]

theorem lastValue?_append {κ ν : Type} [DecidableEq κ] (k : κ) (l l' : List (κ × ν)) :
    lastValue? k (l ++ l') = (lastValue? k l').or (lastValue? k l) := by
  induction l with
  | nil => exact (Option.or_none).symm
  | cons e l ih => rw [List.cons_append, lastValue?_cons, ih, lastValue?_cons, Option.or_assoc]

theorem exists_lastValue? {κ ν : Type} [DecidableEq κ] {k : κ} {v : ν} {l : List (κ × ν)}
    (h : (k, v) ∈ l) : ∃ w, lastValue? k l = some w := by
  have hmem : (k, v) ∈ l.filter (·.1 = k) := List.mem_filter.2 ⟨h, by simp⟩
  obtain ⟨e, he⟩ := Option.ne_none_iff_exists'.1
    (mt List.getLast?_eq_none_iff.1 (List.ne_nil_of_mem hmem))
  exact ⟨e.2, by rw [lastValue?, he]; rfl⟩

theorem mem_of_lastValue? {κ ν : Type} [DecidableEq κ] {k : κ} {v : ν} {l : List (κ × ν)}
    (h : lastValue? k l = some v) : (k, v) ∈ l := by
  obtain ⟨e, hlast, rfl⟩ := Option.map_eq_some_iff.1 h
  obtain ⟨hmem, hkey⟩ := List.mem_filter.1 (List.mem_of_getLast? hlast)
  rw [← of_decide_eq_true hkey]
  exact hmem

namespace OrderedMap
variable {κ ν : Type} [Ranked κ]

theorem mem_keys {m : OrderedMap κ ν} {k : κ} : k ∈ m.keys ↔ (m.get? k).isSome :=
  isSome_findEntry.symm

theorem contains_eq_true {m : OrderedMap κ ν} {k : κ} :
    m.contains k = true ↔ ∃ v, m.get? k = some v := by
  rw [contains, Option.isSome_iff_exists]

theorem contains_eq_false {m : OrderedMap κ ν} {k : κ} :
    m.contains k = false ↔ m.get? k = none := by
  rw [contains, Option.isSome_eq_false_iff, Option.isNone_iff_eq_none]

/-- A list of different keys is no longer than the map. -/
theorem length_le_size {m : OrderedMap κ ν} {l : List κ} (hl : l.Nodup)
    (h : ∀ k ∈ l, (m.get? k).isSome) : l.length ≤ m.size := by
  have hsub : l ⊆ m.keys := fun k hk => mem_keys.2 (h k hk)
  have hlen := (List.subperm_of_subset hl hsub).length_le
  simpa [keys, size] using hlen

theorem nodup_keys (m : OrderedMap κ ν) : m.keys.Nodup := by
  rw [keys, List.Nodup, List.pairwise_map]
  exact m.ascending.imp fun h heq => by simp [heq] at h

/-- A map is no larger than one that has its keys. -/
theorem size_le_size {m m' : OrderedMap κ ν} (h : ∀ k, (m.get? k).isSome → (m'.get? k).isSome) :
    m.size ≤ m'.size := by
  have hlen := length_le_size m.nodup_keys fun k hk => h k (mem_keys.1 hk)
  simpa [keys, size] using hlen

theorem le_maxKey? {m : OrderedMap κ ν} {k : κ} (h : (m.get? k).isSome) :
    ∃ top, m.maxKey? = some top ∧ rank k ≤ rank top :=
  le_getLast?_of_ascending (List.pairwise_map.2 m.ascending) (mem_keys.2 h)

variable [DecidableEq κ]

theorem entries_insert_perm (m : OrderedMap κ ν) (k : κ) (v : ν) :
    (m.insert k v).entries.Perm ((k, v) :: (m.erase k).entries) :=
  putAscending_perm m.ascending

theorem entries_perm (m : OrderedMap κ ν) (k : κ) :
    m.entries.Perm (((m.get? k).map (k, ·)).toList ++ (m.erase k).entries) :=
  entries_perm_of_findEntry m.ascending

theorem mem_entries {m : OrderedMap κ ν} {k : κ} {v : ν} :
    (k, v) ∈ m.entries ↔ m.get? k = some v := by
  have hperm := m.entries_perm k
  have hother : (k, v) ∉ (m.erase k).entries := by
    intro hmem
    simpa using (List.mem_filter.1 hmem).2
  rw [hperm.mem_iff, List.mem_append, or_iff_left hother]
  cases m.get? k with
  | none => simp
  | some w => simp [eq_comm]

theorem size_le_size_insert (m : OrderedMap κ ν) (k : κ) (v : ν) :
    m.size ≤ (m.insert k v).size := by
  refine size_le_size fun j hj => ?_
  rw [get?_insert]
  split
  · rfl
  · exact hj

theorem size_lt_size_insert {m : OrderedMap κ ν} {k : κ} (h : m.get? k = none) (v : ν) :
    m.size < (m.insert k v).size := by
  have hfresh : k ∉ m.keys := by simp [mem_keys, h]
  have hlen := length_le_size (m := m.insert k v) (List.nodup_cons.2 ⟨hfresh, m.nodup_keys⟩) <| by
    intro j hj
    rw [get?_insert]
    split
    · rfl
    · next hne => exact mem_keys.1 ((List.mem_cons.1 hj).resolve_left hne)
  simpa [keys, size, Nat.succ_le_iff] using hlen

/-- After several insertions the last one for a key counts. -/
theorem get?_foldl_insert (l : List (κ × ν)) (m : OrderedMap κ ν) (k : κ) :
    (l.foldl (fun m e => m.insert e.1 e.2) m).get? k = (lastValue? k l).or (m.get? k) := by
  induction l generalizing m with
  | nil => rfl
  | cons e l ih =>
    rw [List.foldl_cons, ih, lastValue?_cons, Option.or_assoc, get?_insert]
    by_cases hk : k = e.1
    · rw [if_pos hk, if_pos hk, Option.some_or]
    · rw [if_neg hk, if_neg hk, Option.none_or]

theorem get?_ofList (l : List (κ × ν)) (k : κ) : (ofList l).get? k = lastValue? k l := by
  have h := get?_foldl_insert l empty k
  rwa [get?_empty, Option.or_none] at h

/-- Maps with the same look-ups are equal. -/
theorem eq_of_get? {m m' : OrderedMap κ ν} (h : ∀ k, m.get? k = m'.get? k) : m = m' := by
  have hnodup : ∀ m : OrderedMap κ ν, m.entries.Nodup := fun m => m.nodup_keys.of_map _
  have hperm : m.entries.Perm m'.entries := by
    refine (List.perm_ext_iff_of_nodup (hnodup m) (hnodup m')).2 fun ⟨k, v⟩ => ?_
    rw [mem_entries, mem_entries, h k]
  have hlist : m.entries = m'.entries :=
    hperm.eq_of_pairwise (fun a b _ _ hab hba => absurd hab (Nat.lt_asymm hba))
      m.ascending m'.ascending
  cases m
  cases m'
  simpa using hlist

@[simp] theorem ofList_entries (m : OrderedMap κ ν) : ofList m.entries = m := by
  refine eq_of_get? fun k => ?_
  rw [get?_ofList]
  cases hlast : lastValue? k m.entries with
  | some v => exact (mem_entries.1 (mem_of_lastValue? hlast)).symm
  | none =>
    cases hk : m.get? k with
    | none => rfl
    | some v =>
      obtain ⟨w, hw⟩ := exists_lastValue? (mem_entries.2 hk)
      rw [hlast] at hw
      cases hw

theorem flatten_values_insert {β : Type} (m : OrderedMap κ (List β)) (k : κ) (v : List β) :
    (m.insert k v).values.flatten.Perm (v ++ (m.erase k).values.flatten) :=
  ((m.entries_insert_perm k v).map Prod.snd).flatten

theorem flatten_values {β : Type} (m : OrderedMap κ (List β)) (k : κ) :
    m.values.flatten.Perm ((m.get? k).getD [] ++ (m.erase k).values.flatten) := by
  have h := ((m.entries_perm k).map Prod.snd).flatten
  rw [List.map_append, List.flatten_append] at h
  cases hk : m.get? k with
  | none => simpa [hk, values] using h
  | some v => simpa [hk, values] using h

end OrderedMap

namespace OrderedSet
variable {α : Type} [Ranked α]

/-- A list of different elements is no longer than the set. -/
theorem length_le_size {s : OrderedSet α} {l : List α} (hl : l.Nodup) (h : ∀ a ∈ l, a ∈ s) :
    l.length ≤ s.size :=
  (List.subperm_of_subset hl h).length_le

theorem nodup_erase_concat [DecidableEq α] (s : OrderedSet α) (a : α) :
    ((s.erase a).toList ++ [a]).Nodup := by
  rw [List.nodup_append]
  refine ⟨(s.erase a).nodup, List.nodup_singleton a, fun b hb c hc => ?_⟩
  rw [List.mem_singleton.1 hc]
  exact (mem_erase.1 hb).2

theorem size_le_size_erase [DecidableEq α] (s : OrderedSet α) (a : α) :
    s.size ≤ (s.erase a).size + 1 := by
  have hsub : s.toList ⊆ a :: (s.erase a).toList := by
    intro b hb
    by_cases hab : b = a
    · exact hab ▸ List.mem_cons_self
    · exact List.mem_cons_of_mem _ (mem_erase.2 ⟨hb, hab⟩)
  exact (List.subperm_of_subset s.nodup hsub).length_le

theorem le_max? {s : OrderedSet α} {a : α} (h : a ∈ s) :
    ∃ top, s.max? = some top ∧ rank a ≤ rank top :=
  le_getLast?_of_ascending s.ascending h

/-- Sets with the same elements are equal. -/
theorem eq_of_mem_iff {s t : OrderedSet α} (h : ∀ a, a ∈ s ↔ a ∈ t) : s = t := by
  have hperm : s.toList.Perm t.toList :=
    (List.perm_ext_iff_of_nodup s.nodup t.nodup).2 h
  have hlist : s.toList = t.toList :=
    hperm.eq_of_pairwise (fun a b _ _ hab hba => absurd hab (Nat.lt_asymm hba))
      s.ascending t.ascending
  cases s
  cases t
  simpa using hlist

@[simp] theorem ofList_toList (s : OrderedSet α) : ofList s.toList = s :=
  eq_of_mem_iff fun _ => by rw [mem_ofList, mem_toList]

end OrderedSet
end QuantumCircuit
