import Mathlib.Tactic

/-! Memory as a function from offsets to bytes, with little-endian 32-bit words, fills and
copies. -/
namespace ByteMem

abbrev Mem := Nat → BitVec 8

variable {f g : Mem} {o src n i p : Nat}

def read32 (f : Mem) (o : Nat) : BitVec 32 := f (o+3)++f (o+2)++f (o+1)++f o

def write32 (f : Mem) (o : Nat) (v : BitVec 32) : Mem := fun i =>
  if o ≤ i ∧ i<o+4 then v.extractLsb' (8*(i-o)) 8 else f i

def fill (f : Mem) (o n : Nat) (b : BitVec 8) : Mem := fun i =>
  if o ≤ i ∧ i<o+n then b else f i

def copy (f : Mem) (o : Nat) (g : Mem) (src n : Nat) : Mem := fun i =>
  if o ≤ i ∧ i<o+n then g (src+(i-o)) else f i

def slice (f : Mem) (o n : Nat) : Mem := fun i => if i<n then f (o+i) else 0

theorem slice_of_lt (f : Mem) (o : Nat) {n i : Nat} (h : i<n) : slice f o n i=f (o+i) := by
  rw [slice,if_pos h]

theorem slice_congr {o p n : Nat} (h : ∀ i<n, f (o+i)=g (p+i)) : slice f o n=slice g p n := by
  funext i
  by_cases hi : i<n
  · rw [slice_of_lt f o hi,slice_of_lt g p hi,h i hi]
  · rw [slice,slice,if_neg hi,if_neg hi]

theorem read32_congr (h : ∀ i<4, f (o+i)=g (p+i)) : read32 f o=read32 g p := by
  have h0 := h 0 (by omega)
  have h1 := h 1 (by omega)
  have h2 := h 2 (by omega)
  have h3 := h 3 (by omega)
  rw [Nat.add_zero,Nat.add_zero] at h0
  rw [read32,read32,h0,h1,h2,h3]

theorem write32_of_lt (f : Mem) {o i : Nat} (v : BitVec 32) (h : i<o ∨ o+4 ≤ i) :
    write32 f o v i=f i := by
  rw [write32,if_neg (by omega)]

@[simp] theorem read32_write32 (f : Mem) (o : Nat) (v : BitVec 32) :
    read32 (write32 f o v) o=v := by
  have h : ∀ k<4, write32 f o v (o+k)=v.extractLsb' (8*k) 8 := by
    intro k hk
    rw [write32,if_pos (by omega),Nat.add_sub_cancel_left]
  have h0 : write32 f o v o=v.extractLsb' 0 8 := h 0 (by omega)
  rw [read32,h 3 (by omega),h 2 (by omega),h 1 (by omega),h0]
  rw [BitVec.extractLsb'_append_extractLsb'_eq_extractLsb' (by omega),
    BitVec.extractLsb'_append_extractLsb'_eq_extractLsb' (by omega),
    BitVec.extractLsb'_append_extractLsb'_eq_extractLsb' (by omega)]
  simp

/-- Writing a word that is there already changes nothing. -/
theorem write32_read32 (f : Mem) (o : Nat) : write32 f o (read32 f o)=f := by
  funext i
  by_cases hi : o ≤ i ∧ i<o+4
  · obtain ⟨k,rfl⟩ := Nat.exists_eq_add_of_le hi.1
    rw [write32,if_pos hi,Nat.add_sub_cancel_left,read32]
    obtain rfl | rfl | rfl | rfl : k=0 ∨ k=1 ∨ k=2 ∨ k=3 := by omega
    all_goals
      ext j hj
      simp only [BitVec.getElem_extractLsb',BitVec.getLsbD_append]
      grind
  · rw [write32,if_neg hi]

theorem write32_write32 (f : Mem) (o : Nat) (v w : BitVec 32) :
    write32 (write32 f o v) o w=write32 f o w := by
  funext i
  by_cases hi : o ≤ i ∧ i<o+4
  · rw [write32,if_pos hi,write32,if_pos hi]
  · rw [write32,if_neg hi,write32,if_neg hi,write32,if_neg hi]

theorem write32_congr (o : Nat) (v : BitVec 32) {i : Nat} (h : f i=g i) :
    write32 f o v i=write32 g o v i := by
  rw [write32,write32,h]

theorem read32_write32_of_disjoint (f : Mem) (v : BitVec 32)
    (h : p+4≤o ∨ o+4≤p) : read32 (write32 f o v) p=read32 f p :=
  read32_congr fun i hi => write32_of_lt f v (by omega)

theorem fill_of_lt (f : Mem) (b : BitVec 8) (h : i<o ∨ o+n ≤ i) : fill f o n b i=f i := by
  rw [fill,if_neg (by omega)]

theorem fill_of_mem (f : Mem) (b : BitVec 8) (h : o ≤ i) (h' : i<o+n) : fill f o n b i=b := by
  rw [fill,if_pos ⟨h,h'⟩]

theorem read32_fill_of_disjoint (f : Mem) {o n p : Nat} (b : BitVec 8) (h : p+4≤o ∨ o+n≤p) :
    read32 (fill f o n b) p=read32 f p :=
  read32_congr fun i hi => fill_of_lt f b (by omega)

theorem copy_of_lt (f g : Mem) (h : i<o ∨ o+n ≤ i) : copy f o g src n i=f i := by
  rw [copy,if_neg (by omega)]

theorem copy_of_mem (f g : Mem) (h : o ≤ i) (h' : i<o+n) : copy f o g src n i=g (src+(i-o)) := by
  rw [copy,if_pos ⟨h,h'⟩]

theorem read32_copy_of_disjoint (f g : Mem) {o src n p : Nat} (h : p+4≤o ∨ o+n≤p) :
    read32 (copy f o g src n) p=read32 f p :=
  read32_congr fun i hi => copy_of_lt f g (by omega)

end ByteMem
