import Componentry.FileTree
import Componentry.Proofs.Text.Scan

/-!
# Putting a file in place

A file is only ever put where no directory stands. Every path then leads to where it led before, and
finds there what it found before, or the new file. A path that led nowhere still leads nowhere, though
what is wrong with it may have changed.
-/

namespace Componentry.FileTree

open List

variable {t t' : FileTree} {names : List String} {bytes : List UInt8} {path : String}
  {s : List Char}

theorem node?_put (t : FileTree) (names names' : List String) (n : FileNode) :
    (t.put names n).node? names' = if names' = names then some n else t.node? names' := by
  have hfilter : ∀ l : List (List String × FileNode), names' ≠ names →
      (l.filter fun x => x.1 != names).lookup names' = l.lookup names' := by
    intro l hne
    induction l with
    | nil => rfl
    | cons x l ih =>
      obtain ⟨a, b⟩ := x
      by_cases ha : a = names
      · rw [filter_cons_of_neg (by simp [ha]), ih, lookup_cons,
          beq_false_of_ne (by rw [ha]; exact hne)]
      · rw [filter_cons_of_pos (by simp [ha]), lookup_cons, lookup_cons, ih]
  simp only [node?, put, lookup_cons]
  by_cases he : names' = names
  · rw [if_pos he, he, beq_self_eq_true]
  · rw [if_neg he, beq_false_of_ne he]
    simp [hfilter t.nodes he]

section

variable (h : t.node? names ≠ some .directory)

include h

theorem needDirectory_put (bytes : List UInt8) (time : Int) (names' : List String) :
    ((t.put names (.file bytes time)).needDirectory names').toOption =
      (t.needDirectory names').toOption := by
  simp only [needDirectory, node?_put]
  by_cases he : names' = names
  · rw [if_pos he, he]
    cases hn : t.node? names with
    | none => rfl
    | some n =>
      cases n with
      | file bytes time => rfl
      | directory => exact absurd hn h
  · rw [if_neg he]

theorem follow_put (bytes : List UInt8) (time : Int) (pieces start : List String) :
    ((t.put names (.file bytes time)).follow start pieces).toOption =
      (t.follow start pieces).toOption := by
  induction pieces generalizing start with
  | nil => rfl
  | cons piece rest ih =>
    have hneed := needDirectory_put h bytes time start
    simp only [follow]
    cases hold : t.needDirectory start <;>
      cases hnew : (t.put names (.file bytes time)).needDirectory start <;> rw [hold, hnew] at hneed
    · rfl
    · cases hneed
    · cases hneed
    · exact ih (step start piece)

theorem locate_put (bytes : List UInt8) (time : Int) (path : String) :
    ((t.put names (.file bytes time)).locate path).toOption = (t.locate path).toOption := by
  simp only [locate]
  split
  · rfl
  · exact follow_put h bytes time _ _

end

theorem toOption_find (t : FileTree) (path : String) :
    (t.find path).toOption = (t.locate path).toOption.bind t.node? := by
  rw [find]
  cases t.locate path with
  | error e => rfl
  | ok names =>
    simp only [bind, Except.bind]
    cases hn : t.node? names with
    | none | some n => exact hn.symm

theorem find_put (h : t.node? names ≠ some .directory) (bytes : List UInt8) (time : Int)
    (path : String) : ((t.put names (.file bytes time)).find path).toOption =
      if (t.locate path).toOption = some names then some (.file bytes time)
      else (t.find path).toOption := by
  rw [toOption_find, toOption_find, locate_put h]
  cases (t.locate path).toOption with
  | none => simp
  | some names' => simp [node?_put]

theorem eq_ok_of_toOption {ε α : Type} {x : Except ε α} {a : α} (h : x.toOption = some a) :
    x = .ok a := by
  cases x with
  | ok b => exact congrArg Except.ok (Option.some.inj h)
  | error e => cases h

theorem mem_of_node?_file {time : Int} (h : t.node? names = some (.file bytes time)) :
    (names, .file bytes time) ∈ t.nodes := by
  rw [node?] at h
  cases hl : t.nodes.lookup names with
  | none =>
    simp only [hl] at h
    split at h <;> cases h
  | some n =>
    simp only [hl] at h
    cases h
    obtain ⟨before, after, hnodes, -⟩ := lookup_eq_some_iff.mp hl
    rw [hnodes]
    exact mem_append_right before (.head _)

theorem time?_eq_some {n : Nat} (h : t.time? path = some n) : n = t.clock.toNat ∨
      ∃ names bytes, ∃ time : Int, (names, .file bytes time) ∈ t.nodes ∧ n = time.toNat := by
  rw [time?] at h
  cases hf : t.find path with
  | error e => simp only [hf] at h; cases h
  | ok node =>
    cases node with
    | directory =>
      simp only [hf] at h
      exact .inl (Option.some.inj h).symm
    | file bytes time =>
      simp only [hf] at h
      split at h
      · have hnode := toOption_find t path
        rw [hf] at hnode
        obtain ⟨names, -, hnode⟩ := Option.bind_eq_some_iff.mp hnode.symm
        exact .inr ⟨names, bytes, time, mem_of_node?_file hnode, (Option.some.inj h).symm⟩
      · cases h

theorem writeAt_eq_ok {time : Int} (h : t.writeAt path bytes time = .ok t') :
    ∃ names, t.locate path = .ok names ∧ t.node? names ≠ some .directory ∧
      t' = t.put names (.file bytes time) := by
  rw [writeAt] at h
  cases hl : t.locate path with
  | error e => rw [hl] at h; cases h
  | ok names =>
    rw [hl] at h
    refine ⟨names, rfl, ?_⟩
    simp only [bind, Except.bind] at h
    cases hn : t.node? names with
    | none =>
      simp only [hn] at h
      split at h
      · cases h
      · exact ⟨by simp, (Except.ok.inj h).symm⟩
    | some n =>
      cases n with
      | file bytes' time' =>
        simp only [hn] at h
        exact ⟨by simp, (Except.ok.inj h).symm⟩
      | directory => simp only [hn] at h; cases h

theorem readText_of_read (h : t.read path = .ok (Text.utf8 s)) :
    t.readText path = .ok (String.ofList s) := by
  rw [readText, h]
  simp only [bind, Except.bind, Text.ofUtf8?_utf8]
  rfl

theorem readText_write (h : t.write path (Text.utf8 s) = .ok t') :
    t'.readText path = .ok (String.ofList s) := by
  have hwrite : t.tick.1.writeAt path (Text.utf8 s) t.tick.2 = .ok t' := h
  obtain ⟨names, hl, hn, rfl⟩ := writeAt_eq_ok hwrite
  have hplace : (t.tick.1.locate path).toOption = some names := congrArg Except.toOption hl
  have hfind := find_put hn (Text.utf8 s) t.tick.2 path
  rw [if_pos hplace] at hfind
  apply readText_of_read
  rw [read, eq_ok_of_toOption hfind]
  rfl

theorem filesAt_directory {found : List (List String)} (hlocate : t.locate path = .ok names)
    (hnode : t.node? names = some .directory) (hfound : t.filesBelow names = found) :
    t.filesAt path = found.map fun rest => rest.foldl Path.join path := by
  simp [filesAt, hlocate, hnode, hfound]

end Componentry.FileTree
