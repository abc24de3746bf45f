import Odyssey.Rtl.SplayLinks

/-! The generic tables of `lib/rtl/generictable.c`, which are splay trees, and their enumeration. -/
namespace Odyssey.Rtl.GenericTable
open TreeZipper BinTree SplayLinks
variable {α : Type*} {t : BinTree α} {up : Path α}

/-- `RtlpFindGenericTableNodeOrParent`: the node, or the place below the parent. -/
def find (compareRoutine : α → α → Ordering) (buffer : α) : BinTree α → Path α → Focus α ⊕ Path α
  | .nil, up => .inr up
  | .node l a r, up =>
    match compareRoutine buffer a with
    | .lt => find compareRoutine buffer l (.left a r::up)
    | .gt => find compareRoutine buffer r (.right l a::up)
    | .eq => .inl ⟨l,a,r,up⟩

inductive Call (α : Type*) where
  | insert (buffer : α) (allocated : Bool)
  | lookup (buffer : α)
  | delete (buffer : α)

/-- `TableRoot` after a call. -/
def Call.run (compareRoutine : α → α → Ordering) (root : BinTree α) : Call α → BinTree α
  | .insert buffer allocated =>
    match find compareRoutine buffer root [] with
    | .inl n => rtlSplay n.left n.label n.right n.path
    | .inr up => if allocated then rtlSplay .nil buffer .nil up else root
  | .lookup buffer =>
    match find compareRoutine buffer root [] with
    | .inl n => rtlSplay n.left n.label n.right n.path
    | .inr _ => root
  | .delete buffer =>
    match find compareRoutine buffer root [] with
    | .inl n => rtlDelete n
    | .inr _ => root

def Sorted (compareRoutine : α → α → Ordering) (root : BinTree α) : Prop :=
  root.toList.Pairwise (compareRoutine · · = .lt)

section Runs
variable {compareRoutine : α → α → Ordering} [Std.TransCmp compareRoutine] {root : BinTree α}

theorem around_node (l : BinTree α) (a : α) (r : BinTree α) (up : Path α) :
    before up++(node l a r).toList++after up=(before up++l.toList)++a::(r.toList++after up) := by
  simp

/-- The list stays sorted with a buffer at the place that is found for it. -/
theorem find_spec (buffer : α) (t : BinTree α) (up : Path α)
    (hs : (before up++t.toList++after up).Pairwise (compareRoutine · · = .lt))
    (hbefore : ∀ x∈before up, compareRoutine x buffer = .lt)
    (hafter : ∀ x∈after up, compareRoutine buffer x = .lt) :
    match find compareRoutine buffer t up with
    | .inl n => (n.front++n.label::n.back).Pairwise (compareRoutine · · = .lt)
    | .inr q => (before q++buffer::after q).Pairwise (compareRoutine · · = .lt) := by
  fun_induction find compareRoutine buffer t up with
  | case1 up =>
    simp only [toList_nil,List.append_nil,List.pairwise_append] at hs
    refine List.pairwise_append.mpr ⟨hs.1,List.pairwise_cons.mpr ⟨hafter,hs.2.1⟩,fun x hx => ?_⟩
    exact List.forall_mem_cons.mpr ⟨hbefore x hx,hs.2.2 x hx⟩
  | case2 l a r up hlt ih =>
    rw [around_node] at hs
    have hbehind := (List.pairwise_cons.mp (List.pairwise_append.mp hs).2.1).1
    refine ih (by simpa [before,after] using hs) hbefore (List.forall_mem_cons.mpr ⟨hlt,?_⟩)
    exact fun x hx => Std.TransCmp.lt_trans hlt (hbehind x hx)
  | case3 l a r up hgt ih =>
    rw [around_node] at hs
    have hfront := fun x hx => (List.pairwise_append.mp hs).2.2 x hx a List.mem_cons_self
    have ha := Std.OrientedCmp.lt_of_gt hgt
    refine ih (by simpa [before,after] using hs) (fun x hx => ?_) hafter
    rw [before,← List.append_assoc,List.mem_append,List.mem_singleton] at hx
    obtain hx | rfl := hx
    · exact Std.TransCmp.lt_trans (hfront x hx) ha
    · exact ha
  | case4 l a r up heq => simpa [Focus.front,Focus.back] using hs

theorem Sorted.run (hs : Sorted compareRoutine root) (call : Call α) :
    Sorted compareRoutine (call.run compareRoutine root) := by
  have hfind := fun buffer => find_spec buffer root []
    (by simpa [Sorted,before,after] using hs) (by simp [before]) (by simp [after])
  fun_cases Call.run compareRoutine root call with
  | case1 buffer allocated n hn | case4 buffer n hn =>
    specialize hfind buffer
    simpa [hn,Sorted,toList_rtlSplay,Focus.front,Focus.back] using hfind
  | case2 buffer up hup =>
    specialize hfind buffer
    simpa [hup,Sorted,toList_rtlSplay] using hfind
  | case6 buffer n hn =>
    specialize hfind buffer
    rw [hn] at hfind
    rw [Sorted,toList_rtlDelete]
    exact hfind.sublist ((List.Sublist.refl _).append (List.sublist_cons_self _ _))
  | case3 | case5 | case7 => exact hs

/-- Every table that calls make of an empty one is sorted. -/
theorem sorted_runs (calls : List (Call α)) :
    Sorted compareRoutine (calls.foldl (Call.run compareRoutine) .nil) :=
  List.foldlRecOn calls _ .nil fun _ hs call _ => hs.run call

end Runs

def leftmost : BinTree α → Path α → Option (Focus α)
  | .nil, _ => none
  | .node .nil a r, up => some ⟨.nil,a,r,up⟩
  | .node (.node ll b lr) a r, up => leftmost (.node ll b lr) (.left a r::up)

def leftTurnLink (t : BinTree α) : Path α → Option (Focus α)
  | [] => none
  | .left a r::up => some ⟨t,a,r,up⟩
  | .right l a::up => leftTurnLink (.node l a t) up

/-- The link that `RtlRealSuccessor` returns. -/
def successorLink (n : Focus α) : Option (Focus α) :=
  match n.right with
  | .nil => leftTurnLink (.node n.left n.label .nil) n.path
  | .node l a r => leftmost (.node l a r) (.right n.left n.label::n.path)

/-- The node to return. Without a key the loop goes to the left child of the root before it tests
anything: `none` when it reads the left child of a null pointer. -/
def findLink (l : BinTree α) (a : α) (r : BinTree α) : Option (Focus α) → Option (Option (Focus α))
  | none => (leftmost l [.left a r]).map some
  | some key => some (successorLink key)

def rtlEnumerateGenericTable (root : BinTree α) (restart : Bool) : Option (BinTree α × Option α) :=
  match root with
  | .nil => some (.nil, none)
  | .node l a r => (findLink l a r (if restart then none else some ⟨l,a,r,[]⟩)).map fun
    | none => (.node l a r, none)
    | some n => (rtlSplay n.left n.label n.right n.path, some n.label)

def rtlEnumerateGenericTableWithoutSplaying (root : BinTree α) (restartKey : Option (Focus α)) :
    Option (Option (Focus α) × Option α) :=
  match root with
  | .nil => some (restartKey, none)
  | .node l a r => (findLink l a r restartKey).map fun
    | none => (restartKey, none)
    | some n => (some n, some n.label)

/-- What calls return up to the first null pointer. -/
inductive Returns {σ : Type*} (call : σ → Option (σ × Option α)) : σ → List α → Prop
  | stop {s t : σ} : call s=some (t, none) → Returns call s []
  | next {s t : σ} {a : α} {l : List α} :
    call s=some (t, some a) → Returns call t l → Returns call s (a::l)

/-- A restart in front of calls that go on. -/
def splayingCall (s : BinTree α × Bool) : Option ((BinTree α × Bool) × Option α) :=
  (rtlEnumerateGenericTable s.1 s.2).map fun r => ((r.1, false), r.2)

/-- Both enumerations come to an end and give every element once, in ascending order. -/
def EnumeratesAll (compareRoutine : α → α → Ordering) (root : BinTree α) : Prop :=
  ∃ l, Returns splayingCall (root, true) l ∧
    Returns (rtlEnumerateGenericTableWithoutSplaying root) none l ∧
    l.Perm root.toList ∧ l.Pairwise (compareRoutine · · = .lt)

theorem leftmost_eq_none : leftmost t up=none ↔ t = .nil := by
  fun_induction leftmost t up <;> simp_all

theorem leftmost_spec {n : Focus α} (h : leftmost t up=some n) :
    n.label::n.back=t.toList++after up := by
  fun_induction leftmost t up with
  | case1 => simp at h
  | case2 a r up =>
    cases h
    simp [Focus.back]
  | case3 ll b lr a r up ih => simpa [after] using ih h

theorem leftTurnLink_spec (t : BinTree α) (up : Path α) :
    after up=(leftTurnLink t up).elim [] fun n => n.label::n.back := by
  induction up generalizing t with
  | nil => rfl
  | cons c up ih =>
    cases c with
    | left a r => simp [leftTurnLink,Focus.back,after]
    | right l a => exact ih (.node l a t)

/-- The successor is the next element in order. -/
theorem successorLink_spec (n : Focus α) :
    n.back=(successorLink n).elim [] fun m => m.label::m.back := by
  rw [successorLink,Focus.back]
  cases n.right with
  | nil => exact leftTurnLink_spec _ n.path
  | node l a r =>
    dsimp only
    cases hm : leftmost (.node l a r) (.right n.left n.label::n.path) with
    | none => exact absurd (leftmost_eq_none.mp hm) (by simp)
    | some m => exact (leftmost_spec hm).symm

/-- The splayed node becomes the root, in front of what was behind it. -/
theorem rtlSplay_back (n : Focus α) : ∃ l r,
    rtlSplay n.left n.label n.right n.path = .node l n.label r ∧ r.toList=n.back := by
  obtain ⟨l,a,r,up⟩ := n
  rw [Focus.back]
  fun_induction rtlSplay l a r up <;> simp_all [after]

/-- Calls that go on at the successor return what is behind a link. -/
theorem returns_back {σ : Type*} {c : σ → Option (σ × Option α)} {P : σ → Focus α → Prop}
    (hstop : ∀ s k, P s k → successorLink k=none → ∃ s', c s=some (s', none))
    (hnext : ∀ s k n, P s k → successorLink k=some n →
      ∃ s' m, c s=some (s', some n.label) ∧ P s' m ∧ m.back=n.back)
    {s : σ} {k : Focus α} (h : P s k) : Returns c s k.back := by
  generalize hrest : k.back=rest
  induction rest generalizing s k with
  | nil =>
    rw [successorLink_spec] at hrest
    cases hk : successorLink k with
    | none =>
      obtain ⟨s',hcall⟩ := hstop s k h hk
      exact .stop hcall
    | some n => simp [hk] at hrest
  | cons a rest ih =>
    rw [successorLink_spec] at hrest
    cases hk : successorLink k with
    | none => simp [hk] at hrest
    | some n =>
      rw [hk] at hrest
      obtain ⟨rfl,hback⟩ := List.cons.inj hrest
      obtain ⟨s',m,hcall,hm,hmn⟩ := hnext s k n h hk
      exact .next hcall (ih hm (hmn.trans hback))

/-- The enumerations of a table that is not empty work exactly if its root has a left child. Every
table is sorted (`sorted_runs`). -/
theorem enumeratesAll_iff (compareRoutine : α → α → Ordering) (l : BinTree α) (a : α)
    (r : BinTree α)
    (hsorted : Sorted compareRoutine (.node l a r)) :
    EnumeratesAll compareRoutine (.node l a r) ↔ l ≠ .nil := by
  constructor
  · rintro ⟨rest,hrun,-⟩ rfl
    cases hrun with
    | stop hcall => cases hcall
    | next hcall _ => cases hcall
  · intro hl
    obtain ⟨n,hn⟩ := Option.ne_none_iff_exists'.mp (leftmost_eq_none.not.mpr hl)
    have hlist : n.label::n.back=(BinTree.node l a r).toList := by
      simpa [after] using leftmost_spec (hn : leftmost l [.left a r]=some n)
    refine ⟨n.label::n.back,?_,?_,by rw [hlist],by rwa [hlist]⟩
    · obtain ⟨l₁,r₁,hsplay,hback⟩ := rtlSplay_back n
      refine .next (t := (.node l₁ n.label r₁, false)) ?_ ?_
      · simp [splayingCall,rtlEnumerateGenericTable,findLink,hn,hsplay]
      · have hrest := returns_back (c := splayingCall)
          (P := fun s k => s=(.node k.left k.label k.right, false) ∧ k.path=[]) ?_ ?_
          (k := ⟨l₁,n.label,r₁,[]⟩) ⟨rfl,rfl⟩
        · simpa [Focus.back,after,hback] using hrest
        · rintro - ⟨l,a,r,up⟩ ⟨rfl,rfl⟩ hk
          exact ⟨_,by simp [splayingCall,rtlEnumerateGenericTable,findLink,hk]; rfl⟩
        · rintro - ⟨l,a,r,up⟩ m ⟨rfl,rfl⟩ hk
          obtain ⟨l₂,r₂,hsplay,hback⟩ := rtlSplay_back m
          refine ⟨_,⟨l₂,m.label,r₂,[]⟩,?_,⟨rfl,rfl⟩,by simp [Focus.back,after,hback]⟩
          simp [splayingCall,rtlEnumerateGenericTable,findLink,hk,hsplay]
    · refine .next (t := some n) ?_ ?_
      · simp [rtlEnumerateGenericTableWithoutSplaying,findLink,hn]
      · refine returns_back (P := fun s k => s=some k) ?_ ?_ rfl
        · rintro - k rfl hk
          exact ⟨_,by simp [rtlEnumerateGenericTableWithoutSplaying,findLink,hk]; rfl⟩
        · rintro - k m rfl hk
          exact ⟨_,m,by simp [rtlEnumerateGenericTableWithoutSplaying,findLink,hk],rfl,rfl⟩

/-- The table after an insertion of 1 and one of 2. -/
theorem enumeratesAll_two : EnumeratesAll compare (.node (.node .nil 1 .nil) 2 .nil) :=
  (enumeratesAll_iff compare (.node .nil 1 .nil) 2 .nil
    (sorted_runs [.insert 1 true,.insert 2 true])).mpr (by simp)

/-- In a table of one element the loop reads the left child of a null pointer. -/
theorem not_enumeratesAll_one : ¬EnumeratesAll compare (.node .nil 1 .nil) := by
  rintro ⟨rest,hrun,-⟩
  cases hrun with
  | stop hcall => cases hcall
  | next hcall _ => cases hcall

end Odyssey.Rtl.GenericTable
