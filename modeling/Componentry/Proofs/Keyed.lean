import Componentry.Dictionary
import Mathlib.Data.List.Induction
import Mathlib.Data.List.Nodup
import Mathlib.Order.Nat

/-!
# Lists with distinct keys

Entries of the cache, components, instances and their elements are kept in plain lists and looked up
by a key. While the keys of a list differ, looking one up finds its only bearer, whatever the order
of the list.
-/

namespace Componentry

open List

variable {α κ : Type}

theorem mapM_map_eq_some {β γ : Type} {write : α → β} {read : β → Option γ} {f : α → γ}
    {xs : List α} (h : ∀ x ∈ xs, read (write x) = some (f x)) :
    (xs.map write).mapM read = some (xs.map f) := by
  induction xs with
  | nil => rfl
  | cons x xs ih =>
    obtain ⟨hx, hxs⟩ := forall_mem_cons.mp h
    rw [map_cons, mapM_cons, hx, ih hxs]
    rfl

/-- No two members of a list have the same key. -/
def Keyed (key : α → κ) (l : List α) : Prop := (l.map key).Nodup

namespace Keyed

variable {key : α → κ} {l m : List α}

theorem nil : Keyed key ([] : List α) := nodup_nil

theorem cons_iff {a : α} : Keyed key (a :: l) ↔ (∀ b ∈ l, key b ≠ key a) ∧ Keyed key l := by
  unfold Keyed
  rw [map_cons, nodup_cons, mem_map]
  constructor
  · rintro ⟨hn, hl⟩
    exact ⟨fun b hb he => hn ⟨b, hb, he⟩, hl⟩
  · rintro ⟨hn, hl⟩
    exact ⟨fun ⟨b, hb, he⟩ => hn b hb he, hl⟩

variable (h : Keyed key l)

include h

theorem perm (p : l.Perm m) : Keyed key m := (p.map key).nodup_iff.mp h

theorem snoc {a : α} (ha : ∀ b ∈ l, key b ≠ key a) : Keyed key (l ++ [a]) := by
  have hc : Keyed key (a :: l) := cons_iff.mpr ⟨ha, h⟩
  exact hc.perm (perm_append_singleton a l).symm

theorem sublist (s : m.Sublist l) : Keyed key m := (s.map key).nodup h

theorem eq_of_mem {a b : α} (ha : a ∈ l) (hb : b ∈ l) (he : key a = key b) :
    a = b := inj_on_of_nodup_map h ha hb he

variable [BEq κ] [LawfulBEq κ] {k : κ} {a : α}

omit h in
theorem mem_of_find? (h : l.find? (fun x => key x == k) = some a) : a ∈ l ∧ key a = k :=
  ⟨mem_of_find?_eq_some h, by simpa using find?_some h⟩

theorem find?_eq_some_iff : l.find? (fun x => key x == k) = some a ↔ a ∈ l ∧ key a = k := by
  constructor
  · exact mem_of_find?
  · rintro ⟨ha, hk⟩
    cases hf : l.find? (fun x => key x == k) with
    | none =>
      have hn := find?_eq_none.mp hf a ha
      simp [hk] at hn
    | some b =>
      obtain ⟨hb, hbk⟩ := mem_of_find? hf
      rw [h.eq_of_mem hb ha (hbk.trans hk.symm)]

omit h in
theorem find?_eq_none_iff : l.find? (fun x => key x == k) = none ↔ ∀ a ∈ l, key a ≠ k := by
  simp

theorem find?_perm (p : l.Perm m) :
    l.find? (fun x => key x == k) = m.find? (fun x => key x == k) := by
  ext a
  rw [h.find?_eq_some_iff, (h.perm p).find?_eq_some_iff, p.mem_iff]

omit h in
theorem filter_eq_self (h : ∀ b ∈ l, key b ≠ k) : l.filter (fun x => key x != k) = l := by
  rw [List.filter_eq_self]
  intro b hb
  simpa using h b hb

theorem filter_eq_toList :
    l.filter (fun x => key x == k) = (l.find? fun x => key x == k).toList := by
  induction l with
  | nil => rfl
  | cons b l ih =>
    obtain ⟨hb, hl⟩ := cons_iff.mp h
    by_cases he : key b = k
    · have hn := filter_eq_nil_iff.mpr fun x hx hk => hb x hx ((eq_of_beq hk).trans he.symm)
      simp [he, hn]
    · simp [he, ih hl]

theorem map_filter_eq :
    (l.filter fun x => key x == k).map key = if l.any fun x => key x == k then [k] else [] := by
  rw [h.filter_eq_toList, ← isSome_find?]
  cases hf : l.find? fun x => key x == k with
  | none => rfl
  | some a => simp [(mem_of_find? hf).2]

theorem length_filter (ha : a ∈ l) (hk : key a = k) :
    (l.filter fun x => key x != k).length + 1 = l.length := by
  have hone : (l.filter fun x => key x == k).length = 1 := by
    rw [h.filter_eq_toList, h.find?_eq_some_iff.mpr ⟨ha, hk⟩]
    rfl
  have hparts := length_eq_length_filter_add (l := l) fun x => key x == k
  rw [hparts, hone, Nat.add_comm]
  rfl

end Keyed

theorem Dictionary.find?_insert (d : Dictionary α) (name other : String) (value : α) :
    (d.insert name value).find? other = if other = name then some value else d.find? other := by
  unfold find? insert
  fun_induction insertEntry name value d.entries with
  | case1 | case2 =>
    by_cases he : other = name
    · simp [he]
    · simp [he, Ne.symm he]
  | case3 k v rest _ hk =>
    rw [← eq_of_beq hk]
    by_cases he : other = name
    · simp [he]
    · simp [he, Ne.symm he]
  | case4 k v rest _ hk ih =>
    by_cases he : k = other
    · have hne : other ≠ name := by
        rintro rfl
        simp [he] at hk
      simp [he, hne]
    · simpa [he] using ih

theorem Dictionary.find?_erase (d : Dictionary α) (name other : String) :
    (d.erase name).find? other = if other = name then none else d.find? other := by
  rw [find?, erase, find?_filter]
  split
  next he =>
    have hnone : d.entries.find? (fun e => decide ((e.1 != name) = true ∧ (e.1 == other) = true)) = none := by
      simp [he]
    rw [hnone]
    rfl
  next he =>
    congr 2
    funext e
    by_cases h : e.1 = other <;> simp [h, he]

theorem Dictionary.insertEntry_perm {l : List (String × α)} {name : String} (h : ∀ e ∈ l, e.1 ≠ name)
    (value : α) : (insertEntry name value l).Perm ((name, value) :: l) := by
  induction l with
  | nil => exact .refl _
  | cons e l ih =>
    obtain ⟨hne, hl⟩ := forall_mem_cons.mp h
    rw [insertEntry]
    split
    · exact .refl _
    · rw [if_neg (by simpa using hne.symm)]
      exact ((ih hl).cons e).trans (.swap ..)

/-- A dictionary made from entries with distinct names has just these. -/
theorem Dictionary.entries_ofList {l : List (String × α)} (h : Keyed (·.1) l) :
    (ofList l).entries.Perm l := by
  induction l using reverseRecOn with
  | nil => exact .refl _
  | append_singleton l e ih =>
    obtain ⟨hne, hl⟩ := Keyed.cons_iff.mp (h.perm (perm_append_singleton e l))
    have hrest := ih hl
    rw [ofList, foldl_concat]
    exact (insertEntry_perm (fun x hx => hne x (hrest.mem_iff.mp hx)) e.2).trans
      ((hrest.cons e).trans (perm_append_singleton e l).symm)

end Componentry
