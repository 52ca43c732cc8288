import KeyTables.Disk

/-! Reading after writing. A write changes at most the content of the one file that its path leads to, and
no path leads to another file afterwards.

* `Disk.AgreeBeside`: two disks that differ in the content of one file at most.
* `agreeBeside_write`: a write, also one that fails.
* `read_write`: a content that can be written is read back. -/
namespace KeyTables
set_option autoImplicit false

namespace Disk

variable {File : Type} (d : Disk File) (p : Path) (f : File) (bytes : Bytes)

structure AgreeBeside (d' : Disk File) : Prop where
  find : d'.find = d.find
  readFault : d'.readFault = d.readFault
  writeFault : d'.writeFault = d.writeFault
  content : ∀ other, other ≠ f → d'.content other = d.content other

theorem AgreeBeside.refl : d.AgreeBeside f d :=
  ⟨rfl, rfl, rfl, fun _ _ => rfl⟩

theorem read_eq_ok_iff :
    d.read p = .ok bytes ↔
      ∃ f, d.find p = .ok f ∧ d.readFault f = none ∧ d.content f = bytes := by
  unfold read
  cases d.find p with
  | error e => simp
  | ok f => cases hfault : d.readFault f <;> simp [hfault]

theorem stored_of_writeError (hfind : d.find p = .ok f) (h : d.writeError p bytes = none) :
    d.stored f bytes = bytes := by
  simp only [writeError, hfind, Option.map_eq_none_iff] at h
  simp only [stored, h]

variable [DecidableEq File]

theorem write_of_find (hfind : d.find p = .ok f) :
    d.write p bytes =
      { d with content := fun other => if other = f then d.stored f bytes else d.content other } := by
  simp only [write, hfind]

theorem agreeBeside_write (hfind : d.find p = .ok f) : d.AgreeBeside f (d.write p bytes) := by
  rw [d.write_of_find p f bytes hfind]
  exact ⟨rfl, rfl, rfl, fun other hother => if_neg hother⟩

theorem read_write (old : Bytes) (hread : d.read p = .ok old) (h : d.writeError p bytes = none) :
    (d.write p bytes).read p = .ok bytes := by
  obtain ⟨f, hfind, hfault, -⟩ := (d.read_eq_ok_iff p old).mp hread
  rw [read_eq_ok_iff, d.write_of_find p f bytes hfind]
  exact ⟨f, hfind, hfault, by simp [d.stored_of_writeError p f bytes hfind h]⟩

end Disk

end KeyTables
