import Mathlib.Tactic

/-! An interval of offsets cut into consecutive pieces: `Tiling size lo hi l` says that the
pieces that start at the members of `l` and have the lengths `size` fill `[lo, hi)`. -/
namespace Tiling
variable {size size' : Nat → Nat} {lo hi mid a b : Nat} {A B l l' : List Nat}

def Tiles (size : Nat → Nat) : Nat → Nat → List Nat → Prop
  | lo, hi, [] => lo=hi
  | lo, hi, a::l => a=lo ∧ 0<size a ∧ Tiles size (lo+size a) hi l

theorem tiles_append : Tiles size lo hi (A++B) ↔ ∃ mid, Tiles size lo mid A ∧
    Tiles size mid hi B := by
  induction A generalizing lo with
  | nil =>
    constructor
    · intro h
      exact ⟨lo,rfl,h⟩
    · rintro ⟨mid,rfl,h⟩
      exact h
  | cons a A ih =>
    constructor
    · rintro ⟨ha,hp,h⟩
      obtain ⟨mid,h1,h2⟩ := ih.mp h
      exact ⟨mid,⟨ha,hp,h1⟩,h2⟩
    · rintro ⟨mid,⟨ha,hp,h1⟩,h2⟩
      exact ⟨ha,hp,ih.mpr ⟨mid,h1,h2⟩⟩

section

variable (h : Tiles size lo hi l)
include h

theorem Tiles.congr (hs : ∀ a∈l, size' a=size a) : Tiles size' lo hi l := by
  induction l generalizing lo with
  | nil => exact h
  | cons a l ih =>
    obtain ⟨rfl,hp,h⟩ := h
    have ha := hs a (by simp)
    exact ⟨rfl,by omega,by rw [ha]; exact ih h fun b hb => hs b (by simp [hb])⟩

theorem Tiles.le : lo≤hi := by
  induction l generalizing lo with
  | nil => exact le_of_eq h
  | cons a l ih =>
    have := ih h.2.2
    omega

theorem Tiles.length_le : lo+l.length≤hi := by
  induction l generalizing lo with
  | nil => exact le_of_eq h
  | cons a l ih =>
    obtain ⟨rfl,hp,h⟩ := h
    have := ih h
    rw [List.length_cons]
    omega

theorem Tiles.bounds (ha : a∈l) : lo≤a ∧ 0<size a ∧ a+size a≤hi := by
  induction l generalizing lo with
  | nil => simp at ha
  | cons b l ih =>
    obtain ⟨rfl,hp,h⟩ := h
    have hle := h.le
    obtain rfl | ha := List.mem_cons.mp ha
    · exact ⟨le_refl _,hp,hle⟩
    · obtain ⟨h1,h2,h3⟩ := ih h ha
      exact ⟨by omega,h2,h3⟩

/-- Every offset of the interval lies in a piece. -/
theorem Tiles.exists_mem {o : Nat} (hlo : lo≤o) (hhi : o<hi) : ∃ a∈l, a≤o ∧ o<a+size a := by
  induction l generalizing lo with
  | nil =>
    have : lo=hi := h
    omega
  | cons a l ih =>
    obtain ⟨rfl,-,h⟩ := h
    by_cases ho : o<a+size a
    · exact ⟨a,by simp,hlo,ho⟩
    · obtain ⟨c,hc,hle,hlt⟩ := ih h (not_lt.mp ho)
      exact ⟨c,by simp [hc],hle,hlt⟩

/-- Two pieces do not overlap. -/
theorem Tiles.disjoint (ha : a∈l) (hb : b∈l) (hne : a≠b) : a+size a≤b ∨ b+size b≤a := by
  induction l generalizing lo with
  | nil => simp at ha
  | cons c l ih =>
    obtain ⟨rfl,hp,h⟩ := h
    obtain rfl | ha' := List.mem_cons.mp ha
    · obtain rfl | hb' := List.mem_cons.mp hb
      · exact absurd rfl hne
      · exact .inl (h.bounds hb').1
    · obtain rfl | hb' := List.mem_cons.mp hb
      · exact .inr (h.bounds ha').1
      · exact ih h ha' hb'

theorem Tiles.nodup : l.Nodup := by
  induction l generalizing lo with
  | nil => simp
  | cons a l ih =>
    obtain ⟨rfl,hp,h⟩ := h
    refine List.nodup_cons.mpr ⟨?_,ih h⟩
    intro ha
    have := (h.bounds ha).1
    omega

/-- The sizes determine the pieces. -/
theorem Tiles.unique (h' : Tiles size lo hi l') : l=l' := by
  induction l generalizing lo l' with
  | nil =>
    cases l' with
    | nil => rfl
    | cons b l' =>
      obtain ⟨rfl,hp,h'⟩ := h'
      have hlo : b=hi := h
      have := h'.le
      omega
  | cons a l ih =>
    obtain ⟨rfl,hp,h⟩ := h
    cases l' with
    | nil =>
      have hlo : a=hi := h'
      have := h.le
      omega
    | cons b l' =>
      obtain ⟨rfl,-,h'⟩ := h'
      rw [ih h h']

end

/-- Two neighbouring pieces become one. -/
theorem Tiles.merge (h : Tiles size lo hi (A++a::b::B)) (ha : size' a=size a+size b)
    (hs : ∀ c∈A++B, size' c=size c) : Tiles size' lo hi (A++a::B) := by
  obtain ⟨mid,h1,rfl,hp,rfl,hp',h2⟩ := tiles_append.mp h
  refine tiles_append.mpr ⟨a,h1.congr fun c hc => hs c (by simp [hc]),rfl,by omega,?_⟩
  rw [ha,← Nat.add_assoc]
  exact h2.congr fun c hc => hs c (by simp [hc])

/-- A piece is cut in two. -/
theorem Tiles.split (h : Tiles size lo hi (A++a::B)) (ha : 0<size' a)
    (hb : 0<size' (a+size' a)) (hab : size' a+size' (a+size' a)=size a)
    (hs : ∀ c∈A++B, size' c=size c) : Tiles size' lo hi (A++a::(a+size' a)::B) := by
  obtain ⟨mid,h1,rfl,hp,h2⟩ := tiles_append.mp h
  refine tiles_append.mpr ⟨a,h1.congr fun c hc => hs c (by simp [hc]),rfl,ha,rfl,hb,?_⟩
  rw [Nat.add_assoc,hab]
  exact h2.congr fun c hc => hs c (by simp [hc])

theorem Tiles.next (h : Tiles size lo hi (A++a::b::B)) : b=a+size a := by
  obtain ⟨mid,-,rfl,-,rfl,-⟩ := tiles_append.mp h
  rfl

end Tiling
