import Mathlib.Tactic

/-! Buffers whose accesses are checked: a write outside of a buffer, or a search for a terminator
that leaves it, is a fault. -/
namespace CheckedBuffer
open List
variable {α : Type*} {b xs : List α} {pos : Nat}

inductive Fault where
  | writeOutside
  | readOutside
deriving DecidableEq

def store (b : List α) (pos : Nat) (xs : List α) : Except Fault (List α) :=
  if pos+xs.length≤b.length then .ok (b.take pos++xs++b.drop (pos+xs.length))
  else .error .writeOutside

def lengthTo [DecidableEq α] (z : α) (b : List α) : Except Fault Nat :=
  match b.findIdx? (· = z) with
  | some n => .ok n
  | none => .error .readOutside

theorem store_of_le (h : pos+xs.length≤b.length) :
    store b pos xs = .ok (b.take pos++xs++b.drop (pos+xs.length)) := if_pos h

theorem store_of_lt (h : b.length<pos+xs.length) :
    store b pos xs = .error .writeOutside := if_neg (Nat.not_le_of_gt h)

def Yields {β : Type*} (x : Except Fault β) (P : β → Prop) : Prop := ∃ b, x = .ok b ∧ P b

section Yields
variable {β γ : Type} {x : Except Fault β} {P P' : β → Prop} {Q : γ → Prop}

theorem Yields.mono (h : Yields x P) (hP : ∀ b, P b → P' b) : Yields x P' := by
  obtain ⟨b,hx,hb⟩ := h
  exact ⟨b,hx,hP b hb⟩

theorem yields_pure {b : β} (h : P b) : Yields (pure b) P := ⟨b,rfl,h⟩

theorem Yields.bind {f : β → Except Fault γ} (h : Yields x P) (hf : ∀ b, P b → Yields (f b) Q) :
    Yields (x >>= f) Q := by
  obtain ⟨b,rfl,hb⟩ := h
  exact hf b hb

theorem Yields.ite {c : Prop} [Decidable c] {y : Except Fault β} (hx : c → Yields x P)
    (hy : ¬c → Yields y P) : Yields (if c then x else y) P := by
  split
  · rename_i h
    exact hx h
  · rename_i h
    exact hy h

end Yields

/-- What a write inside of the buffer leaves as it is. -/
theorem yields_store (h : pos+xs.length≤b.length) :
    Yields (store b pos xs) fun b' => b'.length=b.length ∧
      (∀ i, i<pos ∨ pos+xs.length ≤ i → b'[i]?=b[i]?) ∧
      ∀ i<xs.length, b'[pos+i]?=xs[i]? := by
  refine ⟨_,store_of_le h,?_,?_,?_⟩
  · simp only [length_append,length_take,length_drop]
    omega
  · intro i hi
    have htake : (b.take pos).length=pos := by
      rw [length_take]
      omega
    obtain hi | hi := hi
    · rw [append_assoc,getElem?_append_left (by omega),getElem?_take_of_lt hi]
    · rw [getElem?_append_right (by simp only [length_append,htake]; omega),getElem?_drop]
      congr 1
      simp only [length_append,htake]
      omega
  · intro i hi
    have htake : (b.take pos).length=pos := by
      rw [length_take]
      omega
    rw [append_assoc,getElem?_append_right (by omega),htake,Nat.add_sub_cancel_left,
      getElem?_append_left hi]

theorem yields_lengthTo [DecidableEq α] {z : α} {b : List α} (h : z∈b) :
    Yields (lengthTo z b) (· < b.length) := by
  unfold lengthTo
  cases hfind : b.findIdx? (· = z) with
  | none =>
    rw [findIdx?_eq_none_iff] at hfind
    simpa using hfind z h
  | some n =>
    obtain ⟨hlt,-⟩ := findIdx?_eq_some_iff_getElem.mp hfind
    exact ⟨n,rfl,hlt⟩

end CheckedBuffer
