import Mathlib.Tactic

/-! Binary trees read in order, positions in them as a node with its path to the root, and the
search along a three-way test. -/
namespace TreeZipper
open List

inductive BinTree (α : Type*) where
  | nil
  | node (l : BinTree α) (a : α) (r : BinTree α)
  deriving DecidableEq, Repr

variable {α : Type*} {test : α → Ordering}

namespace BinTree

def toList : BinTree α → List α
  | nil => []
  | node l a r => l.toList++a::r.toList

@[simp] theorem toList_nil : (nil : BinTree α).toList=[] := rfl

@[simp] theorem toList_node (l : BinTree α) (a : α) (r : BinTree α) :
    (node l a r).toList=l.toList++a::r.toList := rfl

variable {t : BinTree α}

@[simp] theorem toList_eq_nil : t.toList=[] ↔ t=nil := by
  cases t with
  | nil => simp
  | node l a r => simp

def first : BinTree α → Option α
  | nil => none
  | node nil a _ => some a
  | node (node l b r) _ _ => first (node l b r)

theorem first_eq (t : BinTree α) : t.first=t.toList.head? := by
  induction t with
  | nil => rfl
  | node l a r ihl ihr =>
    cases l with
    | nil => rfl
    | node ll b lr =>
      rw [first,ihl]
      simp

def root : BinTree α → Option α
  | nil => none
  | node _ a _ => some a

end BinTree

open BinTree

inductive Frame (α : Type*) where
  | left (a : α) (r : BinTree α)
  | right (l : BinTree α) (a : α)
  deriving DecidableEq, Repr

abbrev Path (α : Type*) := List (Frame α)

def plug (t : BinTree α) : Path α → BinTree α
  | [] => t
  | .left a r::p => plug (.node t a r) p
  | .right l a::p => plug (.node l a t) p

def before : Path α → List α
  | [] => []
  | .left _ _::p => before p
  | .right l a::p => before p++(l.toList++[a])

def after : Path α → List α
  | [] => []
  | .left a r::p => a::r.toList++after p
  | .right _ _::p => after p

theorem toList_plug (t : BinTree α) (p : Path α) :
    (plug t p).toList=before p++t.toList++after p := by
  induction p generalizing t with
  | nil => simp [plug,before,after]
  | cons c p ih =>
    cases c with
    | left a r => simp [plug,before,after,ih]
    | right l a => simp [plug,before,after,ih]

theorem before_append (p q : Path α) : before (p++q)=before q++before p := by
  induction p with
  | nil => simp [before]
  | cons c p ih => cases c <;> simp [before,ih]

theorem after_append (p q : Path α) : after (p++q)=after p++after q := by
  induction p with
  | nil => simp [after]
  | cons c p ih => cases c <;> simp [after,ih]

structure Focus (α : Type*) where
  left : BinTree α
  label : α
  right : BinTree α
  path : Path α
  deriving DecidableEq, Repr

namespace Focus

def tree (f : Focus α) : BinTree α := plug (.node f.left f.label f.right) f.path

def front (f : Focus α) : List α := before f.path++f.left.toList

def back (f : Focus α) : List α := f.right.toList++after f.path

theorem toList_tree (f : Focus α) : f.tree.toList=f.front++f.label::f.back := by
  simp [tree,front,back,toList_plug]

theorem toList_relabel (f : Focus α) (b : α) :
    (plug (.node f.left b f.right) f.path).toList=f.front++b::f.back := by
  simp [front,back,toList_plug]

end Focus

def search (test : α → Ordering) : BinTree α → Path α → Option (Focus α)
  | .nil, _ => none
  | .node l a r, p =>
    match test a with
    | .gt => search test l (.left a r::p)
    | .lt => search test r (.right l a::p)
    | .eq => some ⟨l,a,r,p⟩

theorem search_found {p : Path α} {f : Focus α}
    (h : search test t p=some f) : f.tree=plug t p ∧ test f.label = .eq := by
  induction t generalizing p with
  | nil => simp [search] at h
  | node l a r ihl ihr =>
    rw [search] at h
    split at h
    · exact ihl h
    · exact ihr h
    · rename_i htest
      cases h
      exact ⟨rfl,htest⟩

def Guided (test : α → Ordering) (l : List α) : Prop :=
  l.Pairwise fun a b => test a ≠ .lt → test b = .gt

/-- In front of a label that is not greater than the goal nothing fits. -/
theorem find?_front {a : α} {l : List α} (ha : test a ≠ .gt)
    (h : ∀ b∈l, test b ≠ .lt → test a = .gt) : l.find? (fun b => test b = .eq)=none := by
  rw [find?_eq_none]
  intro b hb heq
  have hb' : test b = .eq := by simpa using heq
  exact ha (h b hb (by simp [hb']))

/-- The search finds what reading all labels in order finds. -/
theorem search_label (h : Guided test t.toList) (p : Path α) :
    (search test t p).map Focus.label=t.toList.find? fun a => test a = .eq := by
  induction t generalizing p with
  | nil => rfl
  | node l a r ihl ihr =>
    rw [Guided,toList_node,pairwise_append,pairwise_cons] at h
    obtain ⟨hl,⟨har,hr⟩,hlr⟩ := h
    rw [search,toList_node,find?_append]
    split
    next htest =>
      -- everything to the right is greater as well
      have hnone : (a::r.toList).find? (fun b => test b = .eq)=none := by
        rw [find?_eq_none]
        intro b hb
        cases mem_cons.mp hb with
        | inl heq => simp [heq,htest]
        | inr hmem => simp [har b hmem (by simp [htest])]
      rw [ihl hl,hnone,Option.or_none]
    next htest =>
      have hnone := find?_front (by simp [htest]) fun b hb => hlr b hb a (by simp)
      rw [ihr hr,hnone,Option.none_or,find?_cons_of_neg (by simp [htest])]
    next htest =>
      have hnone := find?_front (by simp [htest]) fun b hb => hlr b hb a (by simp)
      rw [hnone,find?_cons_of_pos (by simp [htest])]
      rfl

def locate (test : α → Bool) : BinTree α → Path α → Option (Focus α)
  | .nil, _ => none
  | .node l a r, p =>
    if test a then some ⟨l,a,r,p⟩
    else (locate test l (.left a r::p)).or (locate test r (.right l a::p))

theorem locate_sound {test : α → Bool} {p : Path α} {f : Focus α} (h : locate test t p=some f) :
    f.tree=plug t p ∧ test f.label=true := by
  induction t generalizing p with
  | nil => simp [locate] at h
  | node l a r ihl ihr =>
    rw [locate] at h
    split at h
    · rename_i htest
      cases h
      exact ⟨rfl,htest⟩
    · cases Option.or_eq_some_iff.mp h with
      | inl h => exact ihl h
      | inr h => exact ihr h.2

theorem locate_eq_none {test : α → Bool} {p : Path α} :
    locate test t p=none ↔ ∀ a∈t.toList, test a=false := by
  induction t generalizing p with
  | nil => simp [locate]
  | node l a r ihl ihr =>
    rw [locate]
    split
    · rename_i htest
      simp only [reduceCtorEq,toList_node,mem_append,mem_cons,false_iff,not_forall]
      exact ⟨a,.inr (.inl rfl),by simp [htest]⟩
    · rename_i htest
      rw [Option.or_eq_none_iff,ihl,ihr]
      simp only [toList_node,mem_append,mem_cons]
      constructor
      · intro h b hb
        obtain hb | hb | hb := hb
        · exact h.1 b hb
        · simpa [hb] using htest
        · exact h.2 b hb
      · intro h
        exact ⟨fun b hb => h b (.inl hb),fun b hb => h b (.inr (.inr hb))⟩

end TreeZipper
