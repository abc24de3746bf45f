import Odyssey.Lib.Bytes

/-! Records of different sizes one after another in a memory. The size of a record is read from the
memory where the record lies. -/
namespace ByteMem

def bytes (f : Mem) (o n : Nat) : List (BitVec 8) := (List.range n).map fun i => f (o+i)

@[simp] theorem length_bytes (f : Mem) (o n : Nat) : (bytes f o n).length=n := by simp [bytes]

theorem getElem?_bytes (f : Mem) (o : Nat) {n i : Nat} (h : i<n) :
    (bytes f o n)[i]?=some (f (o+i)) := by
  simp [bytes,h]

theorem bytes_congr {f g : Mem} {o p n : Nat} (h : ∀ i<n, f (o+i)=g (p+i)) :
    bytes f o n=bytes g p n :=
  List.map_congr_left fun i hi => h i (List.mem_range.mp hi)

theorem bytes_add (f : Mem) (o m n : Nat) : bytes f o (m+n)=bytes f o m++bytes f (o+m) n := by
  simp [bytes,List.range_add,Nat.add_assoc]

theorem take_bytes (f : Mem) (o : Nat) {k n : Nat} (h : n≤k) :
    (bytes f o k).take n=bytes f o n := by
  obtain ⟨d,rfl⟩ := Nat.exists_eq_add_of_le h
  rw [bytes_add,List.take_left' (length_bytes f o n)]

theorem drop_bytes (f : Mem) (o : Nat) {k n : Nat} (h : n≤k) :
    (bytes f o k).drop n=bytes f (o+n) (k-n) := by
  obtain ⟨d,rfl⟩ := Nat.exists_eq_add_of_le h
  rw [bytes_add,List.drop_left' (length_bytes f o n),Nat.add_sub_cancel_left]

theorem bytes_copy (f g : Mem) (o src n : Nat) : bytes (copy f o g src n) o n=bytes g src n := by
  refine bytes_congr fun i hi => ?_
  rw [copy_of_mem f g (Nat.le_add_right o i) (by omega),Nat.add_sub_cancel_left]

theorem bytes_copy_of_disjoint (f g : Mem) {o src n p k : Nat} (h : p+k≤o ∨ o+n≤p) :
    bytes (copy f o g src n) p k=bytes f p k :=
  bytes_congr fun i hi => copy_of_lt f g (by omega)

end ByteMem

namespace PackedRecords
open ByteMem
variable {size : Mem → Nat → Nat} {m m' : Mem} {o p : Nat} {a : List (BitVec 8)}
  {l l' : List (List (BitVec 8))}

def IsRecord (size : Mem → Nat → Nat) (a : List (BitVec 8)) : Prop :=
  ∀ m o, bytes m o a.length=a → size m o=a.length

/-- The records of a list lie in a memory from an offset on. -/
structure Packed (size : Mem → Nat → Nat) (m : Mem) (o : Nat) (l : List (List (BitVec 8))) :
    Prop where
  records : ∀ a∈l, IsRecord size a
  bytes_eq : bytes m o l.flatten.length=l.flatten

def walk (size : Mem → Nat → Nat) (m : Mem) : Nat → Nat → Nat
  | 0, o => o
  | n+1, o => walk size m n (o+size m o)

theorem packed_append : Packed size m o (l++l') ↔
    Packed size m o l ∧ Packed size m (o+l.flatten.length) l' := by
  constructor
  · intro h
    have hbytes := h.bytes_eq
    rw [List.flatten_append,List.length_append,bytes_add] at hbytes
    obtain ⟨hl,hl'⟩ := List.append_inj hbytes (by simp)
    exact ⟨⟨fun a ha => h.records a (by simp [ha]),hl⟩,⟨fun a ha => h.records a (by simp [ha]),hl'⟩⟩
  · intro h
    obtain ⟨hl,hl'⟩ := h
    refine ⟨fun a ha => ?_,?_⟩
    · obtain ha | ha := List.mem_append.mp ha
      · exact hl.records a ha
      · exact hl'.records a ha
    · rw [List.flatten_append,List.length_append,bytes_add,hl.bytes_eq,hl'.bytes_eq]

/-- Records that are moved, or left where they are. -/
theorem Packed.of_bytes (h : Packed size m o l)
    (hbytes : bytes m' p l.flatten.length=bytes m o l.flatten.length) : Packed size m' p l :=
  ⟨h.records,hbytes.trans h.bytes_eq⟩

theorem Packed.size_eq (h : Packed size m o (a::l)) : size m o=a.length := by
  have happend : Packed size m o ([a]++l) := h
  have hfirst := (packed_append.mp happend).1.bytes_eq
  simp only [List.flatten_cons,List.flatten_nil,List.append_nil] at hfirst
  exact h.records a (by simp) m o hfirst

theorem Packed.tail (h : Packed size m o (a::l)) : Packed size m (o+a.length) l := by
  have happend : Packed size m o ([a]++l) := h
  simpa using (packed_append.mp happend).2

theorem Packed.walk (h : Packed size m o l) {n : Nat} (hn : n≤l.length) :
    walk size m n o=o+(l.take n).flatten.length := by
  induction n generalizing o l with
  | zero => simp [PackedRecords.walk]
  | succ n ih =>
    cases l with
    | nil => exact absurd hn (by simp)
    | cons a l =>
      have hrest := ih h.tail (Nat.le_of_succ_le_succ hn)
      rw [PackedRecords.walk,h.size_eq]
      simp only [List.take_succ_cons,List.flatten_cons,List.length_append]
      omega

theorem Packed.take (h : Packed size m o l) (n : Nat) : Packed size m o (l.take n) := by
  rw [← List.take_append_drop n l] at h
  exact (packed_append.mp h).1

theorem Packed.drop (h : Packed size m o l) (n : Nat) :
    Packed size m (o+(l.take n).flatten.length) (l.drop n) := by
  rw [← List.take_append_drop n l] at h
  exact (packed_append.mp h).2

theorem flatten_length_take_add_drop (l : List (List (BitVec 8))) (n : Nat) :
    (l.take n).flatten.length+(l.drop n).flatten.length=l.flatten.length := by
  rw [← List.length_append,← List.flatten_append,List.take_append_drop]

end PackedRecords
