import Odyssey.Lib.PackedRecords

/-! Messages one behind another in a linear buffer, each behind a word with its length, and streams
of messages that are taken in pieces. -/
namespace Messages
open ByteMem

inductive Framed (m : Mem) : Nat → List (List (BitVec 8)) → Nat → Prop
  | nil (w : Nat) : Framed m w [] w
  | cons {r w : Nat} {x : List (BitVec 8)} {l : List (List (BitVec 8))}
      (length : (read32 m r).toNat=x.length) (data : bytes m (r+4) x.length=x)
      (rest : Framed m (r+4+x.length) l w) : Framed m r (x::l) w

section Framed
variable {m m' : Mem} {r r' v w : Nat} {x : List (BitVec 8)} {l l' : List (List (BitVec 8))}

theorem Framed.flatten_le (h : Framed m r l w) : r+l.flatten.length≤w := by
  induction h with
  | nil => simp
  | cons _ _ _ ih =>
    rw [List.flatten_cons,List.length_append]
    omega

theorem Framed.le (h : Framed m r l w) : r≤w := by
  have hflatten := h.flatten_le
  omega

/-- The messages stay the same where their bytes go to another place. -/
theorem Framed.shift (h : Framed m r l w) (hm : ∀ i, r+i<w → m' (r'+i)=m (r+i)) :
    Framed m' r' l (r'+(w-r)) := by
  induction h generalizing r' with
  | nil =>
    rw [Nat.sub_self]
    exact .nil _
  | @cons r w x l hlength hdata hrest ih =>
    have hle := hrest.le
    have hnext : r'+(w-r)=r'+4+x.length+(w-(r+4+x.length)) := by omega
    rw [hnext]
    refine .cons ?_ ?_ (ih fun i hi => ?_)
    · rw [read32_congr fun i hi => hm i (by omega),hlength]
    · refine (bytes_congr fun i hi => ?_).trans hdata
      rw [Nat.add_assoc,Nat.add_assoc]
      exact hm (4+i) (by omega)
    · have hmi := hm (4+x.length+i) (by omega)
      rwa [← Nat.add_assoc,← Nat.add_assoc,← Nat.add_assoc,← Nat.add_assoc] at hmi

theorem Framed.congr (h : Framed m r l w) (hm : ∀ i, r ≤ i → i<w → m' i=m i) : Framed m' r l w := by
  have hshift : Framed m' r l (r+(w-r)) := h.shift fun i hi => hm _ (by omega) hi
  rwa [Nat.add_sub_cancel' h.le] at hshift

theorem Framed.append (h : Framed m r l v) (h' : Framed m v l' w) : Framed m r (l++l') w := by
  induction h with
  | nil => exact h'
  | cons hlength hdata _ ih => exact .cons hlength hdata (ih h')

theorem Framed.write (h : Framed m r l w) (hx : x.length<2^32)
    (hm : ∀ i, r ≤ i → i<w → m' i=m i) (hlength : read32 m' w=BitVec.ofNat 32 x.length)
    (hdata : bytes m' (w+4) x.length=x) : Framed m' r (l++[x]) (w+4+x.length) := by
  refine (h.congr hm).append (.cons ?_ hdata (.nil _))
  rw [hlength,BitVec.toNat_ofNat,Nat.mod_eq_of_lt hx]

end Framed

section Stream
variable {α : Type*} {accepted : List (List α)} {taken : List α} {pending rest : List (List α)}
  {x y u v : List α}

def Pending (accepted : List (List α)) (taken : List α) : List (List α) → Prop
  | [] => taken=accepted.flatten
  | y::rest => ∃ done x, accepted=done++(x++y)::rest ∧ taken=done.flatten++x

def IsPiece (accepted : List (List α)) (before piece : List α) : Prop :=
  ∃ done x y rest, accepted=done++(x++piece++y)::rest ∧ before=done.flatten++x

theorem Pending.accept (h : Pending accepted taken pending) (x : List α) :
    Pending (accepted++[x]) taken (pending++[x]) := by
  cases pending with
  | nil => exact ⟨accepted,[],by simp,by simpa [Pending] using h⟩
  | cons y rest =>
    obtain ⟨done,z,rfl,htaken⟩ := h
    exact ⟨done,z,by simp,htaken⟩

theorem Pending.flatten (h : Pending accepted taken pending) :
    taken++pending.flatten=accepted.flatten := by
  cases pending with
  | nil => simpa [Pending] using h
  | cons y rest =>
    obtain ⟨done,x,rfl,rfl⟩ := h
    simp

theorem Pending.take_part (h : Pending accepted taken ((u++v)::rest)) :
    Pending accepted (taken++u) (v::rest) := by
  obtain ⟨done,x,rfl,rfl⟩ := h
  exact ⟨done,x++u,by simp,by simp⟩

theorem Pending.take_all (h : Pending accepted taken (y::rest)) :
    Pending accepted (taken++y) rest := by
  obtain ⟨done,x,rfl,rfl⟩ := h
  cases rest with
  | nil => simp [Pending]
  | cons z rest => exact ⟨done++[x++y],[],by simp,by simp⟩

theorem Pending.isPiece (h : Pending accepted taken ((u++v)::rest)) : IsPiece accepted taken u := by
  obtain ⟨done,x,rfl,rfl⟩ := h
  exact ⟨done,x,v,rest,by simp,rfl⟩

theorem IsPiece.accept (h : IsPiece accepted taken u) (x : List α) :
    IsPiece (accepted++[x]) taken u := by
  obtain ⟨done,z,y,rest,rfl,htaken⟩ := h
  exact ⟨done,z,y,rest++[x],by simp,htaken⟩

end Stream

end Messages
