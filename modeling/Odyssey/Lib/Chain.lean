import Mathlib.Tactic

/-! Singly linked lists: a head and the links of the nodes describe the list of the nodes met
on the way to `nil`. A node `x` is known by its reference `ref x`. -/
namespace LinkedList
variable {α β : Type*} {nil : α} {ref link link' : β → α} {A B : List β} {l : List β}

/-- Following the links from `head` meets exactly the members of a list and then `nil`. -/
def Chain (nil : α) (ref link : β → α) : α → List β → Prop
  | head, [] => head=nil
  | head, x::l => head=ref x ∧ ref x≠nil ∧ Chain nil ref link (link x) l

variable {head : α}

theorem Chain.congr (h : Chain nil ref link head l) (hl : ∀ x∈l, link' x=link x) :
    Chain nil ref link' head l := by
  induction l generalizing head with
  | nil => exact h
  | cons x l ih =>
    obtain ⟨rfl,hx,ht⟩ := h
    refine ⟨rfl,hx,?_⟩
    rw [hl x (by simp)]
    exact ih ht fun y hy => hl y (by simp [hy])

theorem Chain.push {x : β} (h : Chain nil ref link head l)
    (hx : ref x≠nil) (hl : link' x=head) (hs : ∀ y∈l, link' y=link y) :
    Chain nil ref link' (ref x) (x::l) :=
  ⟨rfl,hx,by rw [hl]; exact h.congr hs⟩

theorem Chain.rest {a : β} (h : Chain nil ref link head (A++a::B)) :
    Chain nil ref link (link a) B := by
  induction A generalizing head with
  | nil => exact h.2.2
  | cons y A ih => exact ih h.2.2

/-- Redirecting the link of a member replaces what follows it. -/
theorem Chain.splice {a : β} {A B B' : List β} (h : Chain nil ref link head (A++a::B))
    (hs : ∀ y∈A, link' y=link y) (hB : Chain nil ref link' (link' a) B') :
      Chain nil ref link' head (A++a::B') := by
  induction A generalizing head with
  | nil =>
    obtain ⟨rfl,ha,-⟩ := h
    exact ⟨rfl,ha,hB⟩
  | cons y A ih =>
    obtain ⟨rfl,hy,ht⟩ := h
    refine ⟨rfl,hy,?_⟩
    rw [hs y (by simp)]
    exact ih ht fun z hz => hs z (by simp [hz])

theorem Chain.unlink {a x : β} (h : Chain nil ref link head (A++a::x::B))
    (hl : link' a=link x) (hs : ∀ y∈A++B, link' y=link y) : Chain nil ref link' head (A++a::B) := by
  refine h.splice (fun y hy => hs y (by simp [hy])) ?_
  rw [hl]
  exact h.rest.2.2.congr fun y hy => hs y (by simp [hy])

/-- Nodes at equal distances that are linked in order. -/
theorem chain_range' {link : Nat → Nat} {start step n : Nat} (hpos : 0<start)
    (hl : ∀ i<n, link (start+step*i)=start+step*(i+1))
    (hlast : link (start+step*n)=0) :
    Chain 0 id link start (List.range' start (n+1) step) := by
  induction n generalizing start with
  | zero => exact ⟨rfl,Nat.ne_of_gt hpos,hlast⟩
  | succ n ih =>
    refine ⟨rfl,Nat.ne_of_gt hpos,?_⟩
    have hfirst := hl 0 (Nat.succ_pos n)
    have hnext : ∀ i, start+step+step*i=start+step*(i+1) := fun i => by ring
    rw [Nat.mul_zero,Nat.add_zero,Nat.mul_one] at hfirst
    rw [hfirst]
    refine ih (by omega) (fun i hi => ?_) ?_
    · rw [hnext,hnext]
      exact hl (i+1) (by omega)
    · rw [hnext]
      exact hlast

end LinkedList
