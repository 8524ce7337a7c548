import Mathlib
import TradePlan.Files.Table
import TradePlan.Proofs.Outcome

/-!
# Files that are put are found

Looking at a path changes nothing, and a file that is put is found there.  So a table is a device
where files are put as a whole.

    (table.look path).writeText text = .ok written → (table.put path written).look path = written

A file that is put makes no directory of a file, and every directory stays one: the way to the file is
the same as before.
-/

namespace TradePlan

/-- Files of which looking changes nothing, and where a file is put as a whole or not at all. -/
structure FileAccess.IsAtomic {σ : Type} (files : FileAccess (StateM σ)) : Prop where
  look : ∀ path s, (files.look path s).2 = s
  put : ∀ path text written s, (files.look path s).1.writeText text = .ok written →
    (files.put path written s).1 = none →
      (files.look path (files.put path written s).2).1 = written
  fault : ∀ path slot s fault, (files.put path slot s).1 = some fault →
    (files.look path (files.put path slot s).2).1 = (files.look path s).1

namespace FileTable

variable {table : FileTable} {location : Location} {content : ByteArray}

theorem not_isBelow_self (location : Location) : location.isBelow location = false := by
  simp [Location.isBelow]

/-- Directories stay directories. -/
theorem isDirectory_putAt_of (h : table.isDirectory location = true) (target : Location) :
    (table.putAt target content).isDirectory location = true := by
  rw [isDirectory, Bool.or_eq_true, List.any_eq_true] at h ⊢
  refine h.imp_right ?_
  rintro ⟨⟨other, bytes⟩, hmem, hbelow⟩
  by_cases hsame : other = target
  · exact ⟨(target, content), List.mem_cons_self, hsame ▸ hbelow⟩
  · exact ⟨(other, bytes), List.mem_cons_of_mem _ (List.mem_filter.mpr ⟨hmem, by simpa⟩), hbelow⟩

/-- A file makes no directory of itself. -/
theorem isDirectory_putAt_self (h : table.isDirectory location = false) :
    (table.putAt location content).isDirectory location = false := by
  rw [isDirectory, Bool.or_eq_false_iff, List.any_eq_false] at h ⊢
  refine ⟨h.1, ?_⟩
  rintro ⟨other, bytes⟩ hmem
  rcases List.mem_cons.mp hmem with heq | hmem
  · cases heq
    simp [not_isBelow_self]
  · exact h.2 _ (List.mem_of_mem_filter hmem)

theorem slotAt_putAt (h : table.isDirectory location = false) :
    (table.putAt location content).slotAt location = .file content := by
  rw [slotAt, isDirectory_putAt_self h]
  simp [putAt]

theorem slotAt_eq_directory_iff :
    table.slotAt location = .directory ↔ table.isDirectory location = true := by
  rw [slotAt]
  split
  · next h => simp [h]
  · next h =>
    cases table.files.lookup location <;> simp [h]

theorem find_putAt_of_directory {part : List Char} (h : table.find location part = .directory)
    (target : Location) : (table.putAt target content).find location part = .directory := by
  rw [find] at h ⊢
  split at h
  · next hdots => rw [if_pos hdots]
  · next hdots =>
    rw [if_neg hdots]
    split at h
    · cases h
    · next hshort =>
      rw [if_neg hshort, slotAt_eq_directory_iff]
      exact isDirectory_putAt_of (slotAt_eq_directory_iff.mp h) target

/-- The way through directories is the same after a file is put. -/
theorem enter_putAt {part : List Char} {next : Location}
    (h : table.enter location part = .ok next) (target : Location) :
    (table.putAt target content).enter location part = .ok next := by
  rw [enter] at h ⊢
  split at h
  · next hhere => rw [if_pos hhere, h]
  · next hhere =>
    rw [if_neg hhere]
    split at h
    · next hup => rw [if_pos hup, h]
    · next hup =>
      rw [if_neg hup]
      cases hfind : table.find location part with
      | directory =>
        rw [hfind] at h
        rw [find_putAt_of_directory hfind target]
        exact h
      | absent | file _ | unreachable _ _ | unreadable _ _ =>
        rw [hfind] at h
        cases h

theorem foldlM_enter_putAt {parts : List (List Char)} {next : Location}
    (h : parts.foldlM table.enter location = .ok next) (target : Location) :
    parts.foldlM (table.putAt target content).enter location = .ok next := by
  induction parts generalizing location with
  | nil => exact h
  | cons part parts ih =>
    rw [List.foldlM_cons] at h ⊢
    obtain ⟨between, hpart, hrest⟩ := bind_eq_ok_iff.mp h
    rw [enter_putAt hpart target]
    exact ih hrest

/-- What can be written is the last part of a path without a slash at its end, and no directory. -/
structure Leads (table : FileTable) (path : String) (location : Location) (part : List Char) :
    Prop where
  read : ∃ along, Path.read path = .ok along ∧ along.slashed = false ∧
    along.parts.getLast? = some part ∧ table.reach along = .ok location
  name : ¬ (part = Location.here ∨ part = Location.up) ∧
    ¬ Path.maxNameBytes < Text.byteLength part
  file : table.isDirectory (location.child part) = false

theorem exists_leads {path text : String} {written : Slot}
    (h : (table.look path).writeText text = .ok written) :
    ∃ location part, table.Leads path location part := by
  obtain ⟨hslot, -⟩ := Slot.writeText_eq_ok_iff.mp h
  rw [look] at hslot
  cases hread : Path.read path with
  | error fault => simp [hread] at hslot
  | ok along =>
    simp only [hread, lookAlong] at hslot
    cases hreach : table.reach along with
    | error fault => simp [hreach] at hslot
    | ok location =>
      cases hlast : along.parts.getLast? with
      | none => simp [hreach, hlast] at hslot
      | some part =>
        simp only [hreach, hlast] at hslot
        cases hslashed : along.slashed with
        | true =>
          rw [hslashed] at hslot
          cases hfind : table.find location part <;> simp [hfind, beforeSlash] at hslot
        | false =>
          rw [hslashed, if_neg Bool.false_ne_true, find] at hslot
          split at hslot
          · simp at hslot
          · next hdots =>
            split at hslot
            · simp at hslot
            · next hshort =>
              refine ⟨location, part, ⟨along, hread, hslashed, hlast, hreach⟩, ⟨hdots, hshort⟩, ?_⟩
              rw [← Bool.not_eq_true, ← slotAt_eq_directory_iff]
              intro hdirectory
              simp [hdirectory] at hslot

/-- **A file that is put is found.** -/
theorem look_put {path text : String} {written : Slot}
    (h : (table.look path).writeText text = .ok written) :
    (table.put path written).look path = written := by
  obtain ⟨-, rfl⟩ := Slot.writeText_eq_ok_iff.mp h
  obtain ⟨location, part, ⟨along, hread, hslashed, hlast, hreach⟩, ⟨hdots, hshort⟩, hfile⟩ :=
    exists_leads h
  have hput : table.put path (.file text.toUTF8) = table.putAt (location.child part) text.toUTF8 := by
    simp only [put, hread, hreach, hlast]
  have hreach' : (table.putAt (location.child part) text.toUTF8).reach along = .ok location :=
    foldlM_enter_putAt hreach _
  rw [hput, look, hread]
  simp only [lookAlong, hreach', hlast, hslashed]
  rw [if_neg Bool.false_ne_true, find, if_neg hdots, if_neg hshort, slotAt_putAt hfile]

/-- A table is a device where a file is always put. -/
theorem isAtomic_access : access.IsAtomic where
  look _ _ := rfl
  put _ _ _ _ h _ := look_put h
  fault _ _ _ _ h := nomatch h

end FileTable

end TradePlan
