import Mathlib.Tactic

/-! Scans of an array that is mapped a chunk at a time: an outer loop maps the chunk of an index, an
inner one goes on to the end of the chunk or of the array. The order of the visits is that of a
plain loop. -/
namespace ChunkedScan
variable {σ ρ : Type*} (visit : Nat → Nat → σ → Except ρ σ) (base place : Nat → Nat)
  (width size limit : Nat)

/-- The loop over a mapped chunk: the index and the state where it ends. A visit gets the place of
an element and its index, and may end the scan. -/
def scanChunk (chunk : Nat) : Nat → Nat → Nat → σ → Except ρ (Nat × σ)
  | 0, _, i, s => .ok (i, s)
  | fuel+1, block, i, s =>
    if block<size ∧ i<limit then
      (visit (chunk+block) i s).bind (scanChunk chunk fuel (block+width) (i+1))
    else .ok (i, s)

def scanChunks : Nat → Nat → σ → Except ρ σ
  | 0, _, s => .ok s
  | fuel+1, i, s =>
    if i<limit then
      (scanChunk visit width size limit (base (place i)) size (place i%size) i s).bind fun r =>
        scanChunks fuel r.1 r.2
    else .ok s

def scan : Nat → Nat → σ → Except ρ σ
  | 0, _, s => .ok s
  | n+1, i, s => (visit (place i) i s).bind (scan n (i+1))

variable {visit base place width size limit} {chunk fuel block i : Nat} {s : σ} {r : Nat × σ}

theorem le_of_scanChunk (h : scanChunk visit width size limit chunk fuel block i s = .ok r) :
    i≤r.1 := by
  induction fuel generalizing block i s with
  | zero =>
    obtain rfl := Except.ok.inj h
    exact le_rfl
  | succ fuel ih =>
    rw [scanChunk] at h
    split at h
    · cases hvisit : visit (chunk+block) i s with
      | error e => simp [hvisit,Except.bind] at h
      | ok s' =>
        rw [hvisit] at h
        exact (Nat.le_succ i).trans (ih h)
    · obtain rfl := Except.ok.inj h
      exact le_rfl

/-- The first element of a chunk is visited. -/
theorem lt_of_scanChunk (hblock : block<size) (hi : i<limit)
    (h : scanChunk visit width size limit chunk (fuel+1) block i s = .ok r) : i<r.1 := by
  rw [scanChunk,if_pos ⟨hblock,hi⟩] at h
  cases hvisit : visit (chunk+block) i s with
  | error e => simp [hvisit,Except.bind] at h
  | ok s' =>
    rw [hvisit] at h
    exact le_of_scanChunk h

section
variable (hnext : ∀ i, place i%size+width<size → place (i+1)=place i+width)
include hnext

/-- A plain scan is one of a chunk and then of the rest. -/
theorem scanChunk_bind (hchunk : chunk%size=0) (hplace : block<size → place i=chunk+block) :
    ((scanChunk visit width size limit chunk fuel block i s).bind fun r =>
      scan visit place (limit-r.1) r.1 r.2)=scan visit place (limit-i) i s := by
  induction fuel generalizing block i s with
  | zero => rfl
  | succ fuel ih =>
    rw [scanChunk]
    split
    · next h =>
      have hrest : place (i+1)=chunk+(block+width) ∨ size≤block+width := by
        refine or_iff_not_imp_right.mpr fun hlt => ?_
        have hmod : place i%size=block := by
          rw [hplace h.1,Nat.add_mod,hchunk,Nat.zero_add,Nat.mod_mod,Nat.mod_eq_of_lt h.1]
        rw [hnext i (by omega),hplace h.1]
        omega
      obtain ⟨n,hn⟩ : ∃ n, limit-i=n+1 := ⟨limit-i-1,by omega⟩
      rw [hn,scan,hplace h.1]
      cases visit (chunk+block) i s with
      | error e => rfl
      | ok s' =>
        have hn' : limit-(i+1)=n := by omega
        rw [← hn']
        exact ih fun hlt => hrest.resolve_right (Nat.not_le_of_gt hlt)
    · rfl

/-- The chunks change nothing. -/
theorem scanChunks_eq (hsize : 0<size)
    (hbase : ∀ i, base (place i)+place i%size=place i ∧ base (place i)%size=0)
    (hfuel : limit-i≤fuel) :
    scanChunks visit base place width size limit fuel i s=scan visit place (limit-i) i s := by
  induction fuel generalizing i s with
  | zero =>
    rw [scanChunks,Nat.le_zero.mp hfuel]
    rfl
  | succ fuel ih =>
    rw [scanChunks]
    split
    · next hi =>
      have hblock := Nat.mod_lt (place i) hsize
      have hsplit : ((scanChunk visit width size limit (base (place i)) size
        (place i%size) i s).bind
          fun r => scan visit place (limit-r.1) r.1 r.2)=scan visit place (limit-i) i s :=
        scanChunk_bind hnext (hbase i).2 fun _ => (hbase i).1.symm
      rw [← hsplit]
      cases hchunk : scanChunk visit width size limit (base (place i)) size (place i%size) i s with
      | error e => rfl
      | ok r =>
        obtain ⟨n,rfl⟩ := Nat.exists_eq_succ_of_ne_zero hsize.ne'
        have hlt := lt_of_scanChunk hblock hi hchunk
        exact ih (by omega)
    · next hi =>
      rw [show limit-i=0 by omega]
      rfl

end

end ChunkedScan
