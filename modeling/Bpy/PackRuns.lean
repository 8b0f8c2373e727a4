import Bpy.PackFile

/-!
# Runs of values in a pack

The values of a pack lie one behind the other, in some order of its entries. In an index
sorted by offset, consecutive entries with values that are not empty lie one behind the
other too, so a run of them can be read at once.
-/
namespace Bpy.PackRuns
open ByteWords PackFile
open List

/-- The contents of a pack. -/
structure Pack where
  idx : Index
  data : Bytes
  /-- the size of the file, as the server lists it -/
  size : ℕ

def Pack.value (P : Pack) (e : IndexEnt) : Bytes := (P.data.drop e.offset).take e.size

/-- The values of the entries fill the range from `off` to `stop`, in this order. -/
def Contiguous : ℕ → Index → ℕ → Prop
  | off, [], stop => off = stop
  | off, e :: es, stop => e.offset = off ∧ Contiguous (off + e.size) es stop

def Pack.Covered (P : Pack) : Prop := ∃ c, c.Perm P.idx ∧ Contiguous 0 c P.data.length

/-- The values of two entries do not overlap. -/
def Apart (a b : IndexEnt) : Prop := a.offset + a.size ≤ b.offset ∨ b.offset + b.size ≤ a.offset

variable {c l : Index} {off stop : ℕ}

section

variable (h : Contiguous off c stop)
include h

theorem Contiguous.le : off ≤ stop := by
  induction c generalizing off with
  | nil => exact le_of_eq h
  | cons e c ih =>
    have := ih h.2
    omega

theorem Contiguous.bounds {e : IndexEnt} (he : e ∈ c) : off ≤ e.offset ∧ e.offset + e.size ≤ stop := by
  induction c generalizing off with
  | nil => simp at he
  | cons x c ih =>
    rcases mem_cons.mp he with rfl | he
    · have := h.2.le
      have := h.1
      omega
    · have := ih h.2 he
      omega

theorem Contiguous.apart : c.Pairwise Apart := by
  induction c generalizing off with
  | nil => exact List.Pairwise.nil
  | cons x c ih =>
    refine List.Pairwise.cons (fun y hy => ?_) (ih h.2)
    have := (h.2.bounds hy).1
    have := h.1
    left
    omega

theorem Contiguous.covers {m : ℕ} (hm : off ≤ m) (hstop : m < stop) :
    ∃ x ∈ c, x.offset ≤ m ∧ m < x.offset + x.size := by
  induction c generalizing off with
  | nil =>
    have : off = stop := h
    omega
  | cons x c ih =>
    by_cases hx : m < off + x.size
    · exact ⟨x, mem_cons_self, by have := h.1; omega, by have := h.1; omega⟩
    · obtain ⟨y, hy, hcov⟩ := ih h.2 (by omega)
      exact ⟨y, mem_cons_of_mem _ hy, hcov⟩

end

theorem apart_symm {a b : IndexEnt} (h : Apart a b) : Apart b a := Or.symm h

theorem next_offset {P : Pack} (hP : P.Covered) (hl : l.Perm P.idx)
    (hsorted : l.Pairwise (fun a b => a.offset ≤ b.offset)) {pre post : Index} {a b : IndexEnt}
    (hsplit : l = pre ++ a :: b :: post) (ha : 0 < a.size) (hb : 0 < b.size) : b.offset = a.offset + a.size := by
  obtain ⟨c, hc, hcont⟩ := hP
  have hperm : c.Perm l := hc.trans hl.symm
  have hapart : l.Pairwise Apart := (hperm.pairwise_iff apart_symm).mp hcont.apart
  have hbound := (hcont.bounds (hperm.mem_iff.mpr (show b ∈ l by simp [hsplit]))).2
  subst hsplit
  rw [pairwise_append] at hapart hsorted
  obtain ⟨-, hrest, hcross⟩ := hapart
  obtain ⟨-, hsrest, hscross⟩ := hsorted
  have hab := (pairwise_cons.mp hrest).1 b mem_cons_self
  have hsab := (pairwise_cons.mp hsrest).1 b mem_cons_self
  have hge : a.offset + a.size ≤ b.offset := by
    rcases hab with hab | hab
    · exact hab
    · omega
  by_contra hne
  -- the position behind `a` lies in some value, but every entry is before `a` or after `b`
  obtain ⟨x, hx, hxle, hxlt⟩ := hcont.covers (m := a.offset + a.size) (by omega) (by omega)
  rcases mem_append.mp (hperm.mem_iff.mp hx) with hpre | hmem
  · have hxa := hcross x hpre a mem_cons_self
    have := hscross x hpre a mem_cons_self
    rcases hxa with hxa | hxa <;> omega
  · rcases mem_cons.mp hmem with rfl | hmem
    · omega
    · rcases mem_cons.mp hmem with rfl | hmem
      · omega
      · have hbx := (pairwise_cons.mp (pairwise_cons.mp hsrest).2).1 x hmem
        omega

theorem run_contiguous {P : Pack} (hP : P.Covered) (hl : l.Perm P.idx)
    (hsorted : l.Pairwise (fun a b => a.offset ≤ b.offset)) {pre run post : Index} {e : IndexEnt}
    (hsplit : l = pre ++ e :: run ++ post) (hpos : ∀ x ∈ e :: run, 0 < x.size) :
    Contiguous e.offset (e :: run) (e.offset + ((e :: run).map IndexEnt.size).sum) := by
  induction run generalizing pre e with
  | nil => exact ⟨rfl, by simp [Contiguous]⟩
  | cons b run ih =>
    have hb : b.offset = e.offset + e.size := by
      have hnext : l = pre ++ e :: b :: (run ++ post) := by simpa using hsplit
      apply next_offset hP hl hsorted hnext
      · exact hpos e mem_cons_self
      · exact hpos b (mem_cons_of_mem _ mem_cons_self)
    have hsplit' : l = (pre ++ [e]) ++ b :: run ++ post := by simpa using hsplit
    have hrest := ih hsplit' (fun x hx => hpos x (mem_cons_of_mem _ hx))
    refine ⟨rfl, ?_⟩
    rw [← hb]
    convert hrest using 1
    simp only [map_cons, sum_cons, hb]
    omega

theorem run_le_length {P : Pack} (hP : P.Covered) {run : Index} (hrun : Contiguous off run stop)
    (hne : run ≠ []) (hmem : ∀ x ∈ run, x ∈ P.idx) : stop ≤ P.data.length := by
  obtain ⟨c, hc, hcont⟩ := hP
  induction run generalizing off with
  | nil => exact absurd rfl hne
  | cons e run ih =>
    by_cases hnil : run = []
    · subst hnil
      have hend : off + e.size = stop := hrun.2
      have := (hcont.bounds (hc.mem_iff.mpr (hmem e mem_cons_self))).2
      have := hrun.1
      omega
    · exact ih hrun.2 hnil (fun x hx => hmem x (mem_cons_of_mem _ hx))

end Bpy.PackRuns
