import Mathlib.Tactic

/-! Circular buffers over a flat memory: the `size` cells from address `data` on hold a queue
that starts at a read pointer and goes on, with wrap-around, up to a write pointer. -/
namespace RingBuffer
open List

variable {α : Type*} {mem mem' : Nat → α}

def stretch (mem : Nat → α) (o n : Nat) : List α := (List.range n).map fun k => mem (o+k)

def cell (data size ptr k : Nat) : Nat :=
  if ptr+k<data+size then ptr+k else ptr+k-size

def contents (mem : Nat → α) (data size ptr n : Nat) : List α :=
  (List.range n).map fun k => mem (cell data size ptr k)

@[simp] theorem length_stretch (mem : Nat → α) (o n : Nat) : (stretch mem o n).length=n := by
  simp [stretch]

@[simp] theorem stretch_zero (mem : Nat → α) (o : Nat) : stretch mem o 0=[] := rfl

theorem stretch_congr {o o' n : Nat}
    (h : ∀ k<n, mem (o+k)=mem' (o'+k)) : stretch mem o n=stretch mem' o' n :=
  map_congr_left fun k hk => h k (mem_range.mp hk)

theorem stretch_add (mem : Nat → α) (o m n : Nat) :
    stretch mem o (m+n)=stretch mem o m++stretch mem (o+m) n := by
  rw [stretch,range_add,map_append,map_map]
  refine congrArg _ (map_congr_left fun k _ => ?_)
  simp [Nat.add_assoc]

@[simp] theorem length_contents (mem : Nat → α) (data size ptr n : Nat) :
    (contents mem data size ptr n).length=n := by
  simp [contents]

@[simp] theorem contents_zero (mem : Nat → α) (data size ptr : Nat) :
    contents mem data size ptr 0=[] := rfl

section

variable {data size ptr n m : Nat}

theorem cell_mem (hlow : data≤ptr) (hhigh : ptr<data+size) {k : Nat} (hk : k≤ size) :
    data≤cell data size ptr k ∧ cell data size ptr k<data+size := by
  unfold cell
  split
  all_goals omega

theorem cell_zero (hhigh : ptr<data+size) : cell data size ptr 0=ptr := by
  rw [cell,Nat.add_zero,if_pos hhigh]

theorem cell_cell (hhigh : ptr<data+size) (h : m+n≤ size) :
    cell data size (cell data size ptr m) n=cell data size ptr (m+n) := by
  unfold cell
  split_ifs
  all_goals omega

theorem cell_ne {k l : Nat} (hkl : k<l) (hl : l<size) :
    cell data size ptr k≠cell data size ptr l := by
  unfold cell
  split_ifs
  all_goals omega

/-- The memory after a copy of `m` values to the free cells behind the first `n`. -/
theorem contents_append {n m : Nat} {xs : List α}
    (hxs : xs.length=m) (hold : ∀ k<n, mem' (cell data size ptr k)=mem (cell data size ptr k))
    (hnew : ∀ k, (h : k<xs.length) → mem' (cell data size ptr (n+k))=xs[k]) :
    contents mem' data size ptr (n+m)=contents mem data size ptr n++xs := by
  subst hxs
  rw [contents,range_add,map_append]
  refine congrArg₂ _ (map_congr_left fun k hk => hold k (mem_range.mp hk)) ?_
  refine ext_getElem (by simp) fun k hk hk' => ?_
  simpa using hnew k hk'

theorem contents_add (mem : Nat → α) (hhigh : ptr<data+size) (h : m+n≤ size) :
    contents mem data size ptr (m+n) =
      contents mem data size ptr m++contents mem data size (cell data size ptr m) n := by
  refine contents_append (length_contents _ _ _ _ _) (fun k _ => rfl) fun k hk => ?_
  have hk' : k<n := by simpa using hk
  simp only [contents,getElem_map,getElem_range]
  rw [cell_cell hhigh (by omega)]

theorem contents_congr (hlow : data≤ptr) (hhigh : ptr<data+size) (hn : n≤ size)
    (h : ∀ a, data≤a → a<data+size → mem' a=mem a) :
    contents mem' data size ptr n=contents mem data size ptr n :=
  map_congr_left fun k hk => by
    have hmem := cell_mem hlow hhigh (Nat.le_trans (Nat.le_of_lt (mem_range.mp hk)) hn)
    exact h _ hmem.1 hmem.2

/-- Up to the end of the buffer the contents is one stretch, behind it a second one. -/
theorem contents_eq_stretch (mem : Nat → α) (h : ptr+n≤data+size) :
    contents mem data size ptr n=stretch mem ptr n :=
  map_congr_left fun k hk => by
    have hk' := mem_range.mp hk
    rw [cell,if_pos (by omega)]

theorem contents_eq_stretches (mem : Nat → α) (hhigh : ptr<data+size) (hn : n≤ size)
    (h : data+size<ptr+n) :
    contents mem data size ptr n=stretch mem ptr (data+size-ptr) ++
      stretch mem data (n-(data+size-ptr)) := by
  have hsplit : n=(data+size-ptr)+(n-(data+size-ptr)) := by omega
  have hcell : cell data size ptr (data+size-ptr)=data := by
    rw [cell,if_neg (by omega)]
    omega
  rw [hsplit,contents_add mem hhigh (by omega),hcell,contents_eq_stretch mem (by omega),
    contents_eq_stretch mem (by omega),← hsplit]

end

end RingBuffer
