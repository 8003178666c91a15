import Mathlib.Tactic

/-!
Values that are handed out in groups. Each comes with a key; one whose key
is to be `alone` gets a group of its own, and the others join the first group
whose key is like theirs.
-/

namespace MiniDarwin.Data

variable {κ β γ : Type} (ident : κ → γ) (alone : κ → Bool)

/-- What has been handed out: `places` says for each entry which group it is in. -/
structure Grouped (entries : List (κ × Option β)) (groups : List (κ × List β)) (places : List Nat) :
    Prop where
  length_eq : places.length = entries.length
  /-- a group has the values of its entries, in their order -/
  members : ∀ (j : Nat) (g : κ × List β), groups[j]? = some g →
    g.2 = ((entries.zip places).filter fun e => e.2 = j).filterMap fun e => e.1.2
  key : ∀ (i : Nat) (e : κ × Option β) (j : Nat), entries[i]? = some e → places[i]? = some j →
    ∃ g, groups[j]? = some g ∧ g.1 = e.1
  occupied : ∀ j, j < groups.length → j ∈ places
  lone : ∀ (j : Nat) (g : κ × List β), groups[j]? = some g → alone g.1 = true → g.2.length ≤ 1
  shared : ∀ (i k : Nat) (e f : κ × Option β) (j l : Nat), i ≠ k → entries[i]? = some e →
    entries[k]? = some f → places[i]? = some j → places[k]? = some l →
    (j = l ↔ ident e.1 = ident f.1 ∧ alone e.1 = false)

namespace Grouped

variable {ident alone} {entries : List (κ × Option β)} {groups : List (κ × List β)} {places : List Nat}

theorem nil : Grouped ident alone ([] : List (κ × Option β)) [] [] :=
  ⟨rfl, by simp, by simp, by simp, by simp, by simp⟩

variable (h : Grouped ident alone entries groups places)
include h

theorem lt_length {i j : Nat} (hj : places[i]? = some j) : j < groups.length := by
  obtain ⟨hi, -⟩ := List.getElem?_eq_some_iff.1 hj
  rw [h.length_eq] at hi
  obtain ⟨g, hg, -⟩ := h.key i _ j (List.getElem?_eq_getElem hi) hj
  exact (List.getElem?_eq_some_iff.1 hg).1

/-- The key of a group is that of an entry in it. -/
theorem exists_entry {j : Nat} {g : κ × List β} (hg : groups[j]? = some g) :
    ∃ (i : Nat) (e : κ × Option β), entries[i]? = some e ∧ places[i]? = some j ∧ e.1 = g.1 := by
  obtain ⟨i, hi⟩ := List.mem_iff_getElem?.1 (h.occupied j (List.getElem?_eq_some_iff.1 hg).1)
  have hlt : i < entries.length := by
    rw [← h.length_eq]
    exact (List.getElem?_eq_some_iff.1 hi).1
  obtain ⟨g', hg', hkey⟩ := h.key i _ j (List.getElem?_eq_getElem hlt) hi
  cases hg.symm.trans hg'
  exact ⟨i, _, List.getElem?_eq_getElem hlt, hi, hkey.symm⟩

end Grouped

section Joining

variable [DecidableEq γ]

/-- The group that the next value with this key goes to: its index, or the number of groups
when it is a new one. -/
def spot (groups : List (κ × List β)) (k : κ) : Nat :=
  if alone k then groups.length else groups.findIdx fun g => ident g.1 = ident k

/-- Some keys come without a value. -/
def join (groups : List (κ × List β)) (k : κ) (v : Option β) : List (κ × List β) :=
  if spot ident alone groups k < groups.length then
    groups.modify (spot ident alone groups k) fun g => (g.1, g.2 ++ v.toList)
  else groups ++ [(k, v.toList)]

variable {ident alone} {entries : List (κ × Option β)} {groups : List (κ × List β)} {places : List Nat}
  {k : κ} {v : Option β}

theorem spot_le : spot ident alone groups k ≤ groups.length := by
  unfold spot
  split
  · exact le_rfl
  · exact List.findIdx_le_length

/-- A key that joins a group is like the key of the group. -/
theorem like_of_spot_lt (h : spot ident alone groups k < groups.length) :
    alone k = false ∧ ∃ g, groups[spot ident alone groups k]? = some g ∧ ident g.1 = ident k := by
  unfold spot at *
  split at h
  · omega
  · next halone =>
      rw [if_neg halone]
      refine ⟨by simpa using halone, _, List.getElem?_eq_getElem h, ?_⟩
      simpa using List.findIdx_getElem (w := h)

theorem spot_lt_of_like {l : Nat} {g : κ × List β} (halone : alone k = false) (hg : groups[l]? = some g)
    (hident : ident g.1 = ident k) : spot ident alone groups k < groups.length := by
  unfold spot
  rw [if_neg (by simp [halone])]
  exact List.findIdx_lt_length_of_exists ⟨g, List.mem_of_getElem? hg, by simpa using hident⟩

/-- A group gets at most the one value that comes to it. -/
theorem getElem?_join {j : Nat} {g : κ × List β} (hg : groups[j]? = some g) :
    (join ident alone groups k v)[j]? =
      some (g.1, g.2 ++ if spot ident alone groups k = j then v.toList else []) := by
  obtain ⟨hj, -⟩ := List.getElem?_eq_some_iff.1 hg
  unfold join
  split
  · rw [List.getElem?_modify, hg]
    split <;> simp
  · next hspot =>
      have hne : spot ident alone groups k ≠ j := by omega
      rw [List.getElem?_append_left hj, hg, if_neg hne]
      simp

theorem getElem?_join_new (h : ¬ spot ident alone groups k < groups.length) :
    (join ident alone groups k v)[groups.length]? = some (k, v.toList) := by
  unfold join
  rw [if_neg h]
  simp

theorem spot_eq_length (h : ¬ spot ident alone groups k < groups.length) :
    spot ident alone groups k = groups.length := by
  have hle : spot ident alone groups k ≤ groups.length := spot_le
  omega

theorem lt_length_join {j : Nat} (h : j < (join ident alone groups k v).length) :
    j < groups.length ∨ j = spot ident alone groups k := by
  unfold join at h
  split at h
  · left
    simpa using h
  · next hspot =>
      simp only [List.length_append, List.length_cons, List.length_nil] at h
      have := spot_eq_length hspot
      omega

namespace Grouped

variable (h : Grouped ident alone entries groups places)
  (hinj : ∀ e ∈ entries, ident e.1 = ident k → e.1 = k)
include h hinj

theorem key_spot (hspot : spot ident alone groups k < groups.length) :
    ∃ g, groups[spot ident alone groups k]? = some g ∧ g.1 = k := by
  obtain ⟨-, g, hg, hident⟩ := like_of_spot_lt hspot
  obtain ⟨i, e, he, -, hkey⟩ := h.exists_entry hg
  exact ⟨g, hg, hkey ▸ hinj e (List.mem_of_getElem? he) (hkey ▸ hident)⟩

/-- When the next entry is put where another one is. -/
theorem spot_eq_iff {i j : Nat} {e : κ × Option β} (he : entries[i]? = some e) (hj : places[i]? = some j) :
    spot ident alone groups k = j ↔ ident k = ident e.1 ∧ alone k = false := by
  obtain ⟨g, hg, hkey⟩ := h.key i e j he hj
  constructor
  · rintro rfl
    obtain ⟨halone, g', hg', hident⟩ := like_of_spot_lt (h.lt_length hj)
    cases hg.symm.trans hg'
    exact ⟨by rw [← hkey, hident], halone⟩
  · rintro ⟨hident, halone⟩
    have hspot : spot ident alone groups k < groups.length :=
      spot_lt_of_like halone hg (by rw [hkey, hident])
    obtain ⟨g', hg', hkey'⟩ := h.key_spot hinj hspot
    obtain ⟨i', e', he', hj', hkey''⟩ := h.exists_entry hg'
    by_cases hii : i' = i
    · subst hii
      exact Option.some.inj (hj'.symm.trans hj)
    · refine (h.shared i' i e' e _ j hii he' he hj' hj).2 ⟨?_, ?_⟩
      · rw [hkey'', hkey', hident]
      · rw [hkey'', hkey', halone]

omit hinj in
theorem members_join {j : Nat} {g : κ × List β} (hg : (Data.join ident alone groups k v)[j]? = some g) :
    g.2 = (((entries ++ [(k, v)]).zip (places ++ [spot ident alone groups k])).filter
      fun e => e.2 = j).filterMap fun e => e.1.2 := by
  rw [List.zip_append h.length_eq.symm, List.filter_append, List.filterMap_append]
  have hlast : (([((k, v), spot ident alone groups k)] : List ((κ × Option β) × Nat)).filter
      fun e => e.2 = j).filterMap (fun e => e.1.2) =
      if spot ident alone groups k = j then v.toList else [] := by
    by_cases hj : spot ident alone groups k = j
    · cases v <;> simp [hj]
    · simp [hj]
  simp only [List.zip_cons_cons, List.zip_nil_right, hlast]
  by_cases hj : j < groups.length
  · have hold := List.getElem?_eq_getElem hj
    rw [getElem?_join hold] at hg
    cases hg
    rw [← h.members j _ hold]
  · obtain rfl : j = spot ident alone groups k :=
      (lt_length_join (List.getElem?_eq_some_iff.1 hg).1).resolve_left hj
    have hspot := spot_eq_length hj
    rw [hspot, getElem?_join_new hj] at hg
    cases hg
    have hnone : ∀ e ∈ entries.zip places, ¬ e.2 = spot ident alone groups k := by
      intro e he heq
      obtain ⟨i, hi⟩ := List.mem_iff_getElem?.1 (List.of_mem_zip he).2
      have := h.lt_length hi
      omega
    rw [List.filter_eq_nil_iff.2 (by simpa using hnone)]
    simp

theorem key_join {i j : Nat} {e : κ × Option β} (he : (entries ++ [(k, v)])[i]? = some e)
    (hj : (places ++ [spot ident alone groups k])[i]? = some j) :
    ∃ g, (Data.join ident alone groups k v)[j]? = some g ∧ g.1 = e.1 := by
  by_cases hi : i < entries.length
  · rw [List.getElem?_append_left hi] at he
    rw [List.getElem?_append_left (by rw [h.length_eq]; exact hi)] at hj
    obtain ⟨g, hg, hkey⟩ := h.key i e j he hj
    exact ⟨_, getElem?_join hg, hkey⟩
  · obtain rfl : i = entries.length := by
      have := (List.getElem?_eq_some_iff.1 he).1
      simp only [List.length_append, List.length_cons, List.length_nil] at this
      omega
    rw [List.getElem?_concat_length] at he
    rw [← h.length_eq, List.getElem?_concat_length] at hj
    cases he
    cases hj
    by_cases hspot : spot ident alone groups k < groups.length
    · obtain ⟨g, hg, hkey⟩ := h.key_spot hinj hspot
      exact ⟨_, getElem?_join hg, hkey⟩
    · rw [spot_eq_length hspot]
      exact ⟨_, getElem?_join_new hspot, rfl⟩

theorem lone_join {j : Nat} {g : κ × List β} (hg : (Data.join ident alone groups k v)[j]? = some g)
    (halone : alone g.1 = true) : g.2.length ≤ 1 := by
  by_cases hj : j < groups.length
  · have hold := List.getElem?_eq_getElem hj
    rw [getElem?_join hold] at hg
    cases hg
    -- a group that is joined has a key that others share
    have hne : spot ident alone groups k ≠ j := by
      rintro rfl
      obtain ⟨g, hg, hkey⟩ := h.key_spot hinj hj
      obtain ⟨hshared, -⟩ := like_of_spot_lt hj
      cases hold.symm.trans hg
      simp [hkey, hshared] at halone
    rw [if_neg hne, List.append_nil]
    exact h.lone j _ hold halone
  · obtain rfl : j = spot ident alone groups k :=
      (lt_length_join (List.getElem?_eq_some_iff.1 hg).1).resolve_left hj
    rw [spot_eq_length hj, getElem?_join_new hj] at hg
    cases hg
    exact Option.length_toList_le

/-- One more entry. -/
theorem join : Grouped ident alone (entries ++ [(k, v)]) (Data.join ident alone groups k v)
    (places ++ [spot ident alone groups k]) where
  length_eq := by simp [h.length_eq]
  members := fun j g hg => h.members_join hg
  key := fun i e j he hj => h.key_join hinj he hj
  occupied := by
    intro j hj
    rcases lt_length_join hj with hj | rfl
    · exact List.mem_append_left _ (h.occupied j hj)
    · simp
  lone := fun j g hg halone => h.lone_join hinj hg halone
  shared := by
    intro a b e f j l hab he hf hj hl
    have hold : ∀ {i : Nat} {e : κ × Option β} {j : Nat}, i < entries.length →
        (entries ++ [(k, v)])[i]? = some e → (places ++ [spot ident alone groups k])[i]? = some j →
        entries[i]? = some e ∧ places[i]? = some j := by
      intro i e j hi he hj
      rw [List.getElem?_append_left hi] at he
      rw [List.getElem?_append_left (by rw [h.length_eq]; exact hi)] at hj
      exact ⟨he, hj⟩
    have hnew : ∀ {i : Nat} {e : κ × Option β} {j : Nat}, ¬ i < entries.length →
        (entries ++ [(k, v)])[i]? = some e → (places ++ [spot ident alone groups k])[i]? = some j →
        i = entries.length ∧ e.1 = k ∧ j = spot ident alone groups k := by
      intro i e j hi he hj
      obtain rfl : i = entries.length := by
        have := (List.getElem?_eq_some_iff.1 he).1
        simp only [List.length_append, List.length_cons, List.length_nil] at this
        omega
      rw [List.getElem?_concat_length] at he
      rw [← h.length_eq, List.getElem?_concat_length] at hj
      cases he
      cases hj
      exact ⟨rfl, rfl, rfl⟩
    by_cases ha : a < entries.length
    · obtain ⟨he, hj⟩ := hold ha he hj
      by_cases hb : b < entries.length
      · obtain ⟨hf, hl⟩ := hold hb hf hl
        exact h.shared a b e f j l hab he hf hj hl
      · obtain ⟨-, hk, rfl⟩ := hnew hb hf hl
        rw [eq_comm, h.spot_eq_iff hinj he hj, hk, eq_comm]
        -- like keys are the same key
        constructor
        · rintro ⟨hident, halone⟩
          exact ⟨hident, by rw [hinj e (List.mem_of_getElem? he) hident, halone]⟩
        · rintro ⟨hident, halone⟩
          exact ⟨hident, by rw [← hinj e (List.mem_of_getElem? he) hident, halone]⟩
    · obtain ⟨rfl, hk, rfl⟩ := hnew ha he hj
      by_cases hb : b < entries.length
      · obtain ⟨hf, hl⟩ := hold hb hf hl
        rw [h.spot_eq_iff hinj hf hl, hk]
      · obtain ⟨rfl, -⟩ := hnew hb hf hl
        exact absurd rfl hab

end Grouped

end Joining

end MiniDarwin.Data
