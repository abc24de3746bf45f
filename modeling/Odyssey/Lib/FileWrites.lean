import Odyssey.Lib.Bytes

/-! Lists of writes to a file. A crash leaves a file to which a part at the start of such a
list has been applied. -/
namespace FileWrites
open ByteMem

structure Write where
  offset : Nat
  data : Mem
  length : Nat

def Write.apply (w : Write) (file : Mem) : Mem := copy file w.offset w.data 0 w.length

def Write.Covers (w : Write) (o : Nat) : Prop := w.offset≤o ∧ o<w.offset+w.length

def applyAll (ws : List Write) (file : Mem) : Mem := ws.foldl (fun f w => w.apply f) file

variable {ws vs : List Write} {w : Write} {file : Mem} {o : Nat}

@[simp] theorem applyAll_nil (file : Mem) : applyAll [] file=file := rfl

@[simp] theorem applyAll_cons (w : Write) (ws : List Write) (file : Mem) :
    applyAll (w::ws) file=applyAll ws (w.apply file) := rfl

theorem applyAll_append (ws vs : List Write) (file : Mem) :
    applyAll (ws++vs) file=applyAll vs (applyAll ws file) :=
  List.foldl_append

theorem Write.apply_of_covers (h : w.Covers o) : w.apply file o=w.data (o-w.offset) := by
  rw [apply,copy_of_mem _ _ h.1 h.2,Nat.zero_add]

theorem Write.apply_of_not_covers (h : ¬w.Covers o) : w.apply file o=file o := by
  refine copy_of_lt _ _ ?_
  unfold Covers at h
  omega

theorem applyAll_of_outside (h : ∀ w∈ws, ¬w.Covers o) : applyAll ws file o=file o := by
  induction ws generalizing file with
  | nil => rfl
  | cons w ws ih =>
    rw [applyAll_cons,ih fun v hv => h v (List.mem_cons_of_mem _ hv),
      Write.apply_of_not_covers (h w List.mem_cons_self)]

/-- A byte that is covered, and to which all writes store the same value, has this value. -/
theorem applyAll_of_covered {v : BitVec 8} (hsame : ∀ w∈ws, w.Covers o → w.data (o-w.offset)=v)
    (hcov : ∃ w∈ws, w.Covers o) : applyAll ws file o=v := by
  induction ws generalizing file with
  | nil => simp at hcov
  | cons w ws ih =>
    rw [applyAll_cons]
    by_cases hrest : ∃ w∈ws, w.Covers o
    · exact ih (fun u hu => hsame u (List.mem_cons_of_mem _ hu)) hrest
    · have hw : w.Covers o := by
        obtain ⟨u,hu,hcu⟩ := hcov
        obtain rfl | hu := List.mem_cons.mp hu
        · exact hcu
        · exact absurd ⟨u,hu,hcu⟩ hrest
      rw [applyAll_of_outside fun u hu hcu => hrest ⟨u,hu,hcu⟩,Write.apply_of_covers hw,
        hsame w List.mem_cons_self hw]

end FileWrites
