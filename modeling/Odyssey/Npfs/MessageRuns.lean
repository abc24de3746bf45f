import Odyssey.Lib.GuardedRuns
import Odyssey.Npfs.ByteStreamCopy
import Odyssey.Npfs.MessagePipe

/-! Message pipes as queues of messages, over whole runs. -/
namespace Odyssey.Npfs
open ByteMem Messages List MessagePipe

namespace MessagePipe
variable {p p' : MessagePipe} {t : List (BitVec 8)} {l : List (List (BitVec 8))} {length : Nat}
  {maxDataLength : Nat} {a : Action} {mem : Mem}

/-- The buffer holds the messages behind the part of the stream that was taken. -/
structure Holds (p : MessagePipe) (t : List (BitVec 8)) (l : List (List (BitVec 8))) : Prop where
  large : lengthSize<p.maxDataLength
  small : p.maxDataLength<2^32
  quota : p.writeQuotaAvailable+p.writePtr=p.maxDataLength
  stored : Framed p.mem p.readPtr l p.writePtr
  available : p.readDataAvailable=l.flatten.length
  pending : Pending p.accepted t l

structure SameLogs (p p' : MessagePipe) : Prop where
  waiting : p'.waiting=p.waiting
  released : p'.released=p.released
  accepted : p'.accepted=p.accepted
  returned : p'.returned=p.returned

theorem SameLogs.trans {p'' : MessagePipe} (h : SameLogs p p') (h' : SameLogs p' p'') :
    SameLogs p p'' :=
  ⟨h'.waiting.trans h.waiting,h'.released.trans h.released,h'.accepted.trans h.accepted,
    h'.returned.trans h.returned⟩

theorem Holds.compact (h : p.Holds t l) : ∃ p', p.compact=some p' ∧ p'.Holds t l ∧
    SameLogs p p' ∧ p'.writePtr-p'.readPtr=p.writePtr-p.readPtr := by
  have hle := h.stored.le
  have hquota := h.quota
  have hsmall := h.small
  rw [MessagePipe.compact]
  by_cases hfull : p.writeQuotaAvailable=0 ∧ 0<p.readPtr
  · rw [if_pos hfull,if_pos ⟨hle,by omega⟩]
    refine ⟨_,rfl,⟨h.large,h.small,?_,?_,h.available,h.pending⟩,⟨rfl,rfl,rfl,rfl⟩,?_⟩
    · dsimp only
      rw [ulong_of_lt (by omega)]
      omega
    · have hshift : Framed (copy p.mem 0 p.mem p.readPtr (p.writePtr-p.readPtr)) 0 l
          (0+(p.writePtr-p.readPtr)) := h.stored.shift fun i hi => by
        rw [copy_of_mem _ _ (Nat.zero_le _) (by omega),Nat.zero_add,Nat.sub_zero]
      rwa [Nat.zero_add] at hshift
    · exact Nat.sub_zero _
  · rw [if_neg hfull]
    exact ⟨p,rfl,h,⟨rfl,rfl,rfl,rfl⟩,rfl⟩

section Piece
variable {x : List (BitVec 8)} {n : Nat}

/-- The part of a message that is left becomes a message of its own. -/
theorem framed_partial {m : Mem} {r w : Nat} (h : Framed m r (x::l) w) (hn : n<x.length)
    (hx : x.length<2^32) :
    Framed (write32 m (r+n) (BitVec.ofNat 32 (x.length-n))) (r+n) (x.drop n::l) w := by
  cases h with
  | cons hlength hdata hrest =>
    have hnext : r+n+4+(x.drop n).length=r+4+x.length := by
      rw [length_drop]
      omega
    refine .cons ?_ ?_ ?_
    · rw [read32_write32,BitVec.toNat_ofNat,Nat.mod_eq_of_lt (by omega),length_drop]
    · have hdrop : bytes m (r+4+n) (x.drop n).length=x.drop n := by
        rw [length_drop,← drop_bytes m (r+4) hn.le,hdata]
      refine (bytes_congr fun i hi => ?_).trans hdrop
      rw [write32_of_lt _ _ (by omega),Nat.add_right_comm r]
    · rw [hnext]
      exact hrest.congr fun i hi _ => write32_of_lt _ _ (by omega)

theorem Holds.advance (h : p.Holds t (x::l)) (hn : n≤x.length) (hprogress : 0<n ∨ n=x.length) :
    ∃ p' l', p.advance x.length n=some p' ∧
      { p' with readDataAvailable := ulongSub p.readDataAvailable n }.Holds (t++x.take n) l' ∧
      SameLogs p p' ∧
      (p.readDataAvailable≠n → p'.writePtr-p'.readPtr<p.writePtr-p.readPtr) := by
  have hquota := h.quota
  have hsmall := h.small
  have hle := h.stored.flatten_le
  have havailable := h.available
  have hflatten : (x::l).flatten.length=x.length+l.flatten.length := by simp
  have hsub : ulongSub p.readDataAvailable n=p.readDataAvailable-n :=
    ulongSub_of_le (by omega) (by omega)
  have hsize : lengthSize=4 := rfl
  have hframed := h.stored
  rw [MessagePipe.advance]
  by_cases hmore : p.readDataAvailable > n
  · rw [if_pos hmore]
    by_cases hpart : n<x.length
    · rw [if_pos hpart]
      refine ⟨_,x.drop n::l,rfl,⟨h.large,h.small,hquota,
        framed_partial hframed hpart (by omega),?_,?_⟩,⟨rfl,rfl,rfl,rfl⟩,fun _ => ?_⟩
      · dsimp only
        rw [flatten_cons,length_append,length_drop]
        omega
      · refine Pending.take_part ?_
        rw [take_append_drop]
        exact h.pending
      · dsimp only
        omega
    · obtain rfl : n=x.length := by omega
      rw [if_neg hpart,take_length]
      have hrest : Framed p.mem (p.readPtr+x.length+lengthSize) l p.writePtr := by
        cases hframed with
        | cons _ _ hrest => rwa [Nat.add_right_comm] at hrest
      refine ⟨_,l,rfl,⟨h.large,h.small,hquota,hrest,?_,h.pending.take_all⟩,
        ⟨rfl,rfl,rfl,rfl⟩,fun _ => ?_⟩
      · dsimp only
        omega
      · dsimp only
        omega
  · obtain rfl : n=x.length := by omega
    have hframe : p.readPtr+4+x.length≤p.writePtr := by
      cases hframed with
      | cons _ _ hrest => exact hrest.le
    rw [if_neg hmore,if_pos (by omega),take_length]
    refine ⟨_,[],rfl,⟨h.large,h.small,Nat.add_zero _,.nil _,?_,?_⟩,⟨rfl,rfl,rfl,rfl⟩,
      fun hne => ?_⟩
    · dsimp only
      rw [flatten_nil,length_nil]
      omega
    · have hrest : l.flatten=[] := length_eq_zero_iff.mp (by omega)
      have hall := h.pending.flatten
      rwa [flatten_cons,hrest,append_nil] at hall
    · exact absurd (by omega) hne

structure Piece (p : MessagePipe) (t : List (BitVec 8)) (length : Nat) (p' : MessagePipe)
    (piece : List (BitVec 8)) : Prop where
  holds : ∃ l, p'.Holds (t++piece) l
  logs : SameLogs p p'
  short : piece.length≤length
  isPiece : IsPiece p.accepted t piece
  /-- The buffer gets emptier, or there is nothing left and the piece is not empty. -/
  progress : p'.readDataAvailable≠0 ∧ p'.writePtr-p'.readPtr<p.writePtr-p.readPtr ∨
    p'.readDataAvailable=0 ∧ piece≠[]

theorem Holds.takePiece (h : p.Holds t l) (hdata : p.readDataAvailable≠0) (hlength : 0<length) :
    ∃ p' piece, p.takePiece length=some (p', piece) ∧ Piece p t length p' piece := by
  have havailable := h.available
  have hquota := h.quota
  have hsmall := h.small
  have hflatten := h.stored.flatten_le
  cases l with
  | nil => exact absurd havailable (by simpa using hdata)
  | cons x l =>
    cases h.stored with
    | cons hnext hbytes hrest =>
      have hrestle := hrest.le
      have hsize : lengthSize=4 := rfl
      have hsum : (x::l).flatten.length=x.length+l.flatten.length := by simp
      obtain ⟨p',l',hadvance,hholds,hlogs,hless⟩ :=
        h.advance (Nat.min_le_left x.length length) (by omega)
      have hpiece : bytes p.mem (p.readPtr+lengthSize) (min x.length length) =
          x.take (min x.length length) := by
        rw [hsize,← take_bytes p.mem (p.readPtr+4) (Nat.min_le_left x.length length),hbytes]
      have hsub : ulongSub p.readDataAvailable (min x.length length) =
          p.readDataAvailable-min x.length length := ulongSub_of_le (by omega) (by omega)
      refine ⟨{ p' with readDataAvailable := ulongSub p.readDataAvailable (min x.length length) },
        x.take (min x.length length),?_,⟨l',hholds⟩,
        ⟨hlogs.waiting,hlogs.released,hlogs.accepted,hlogs.returned⟩,?_,?_,?_⟩
      · rw [takePiece,hnext,if_pos (by omega),hadvance,hpiece]
        rfl
      · rw [length_take]
        omega
      · have hpending := h.pending
        rw [← take_append_drop (min x.length length) x] at hpending
        exact hpending.isPiece
      · dsimp only
        by_cases hlast : p.readDataAvailable=min x.length length
        · refine .inr ⟨by omega,fun hnil => ?_⟩
          have hzero := congrArg List.length hnil
          rw [length_take,length_nil] at hzero
          omega
        · exact .inl ⟨by omega,hless hlast⟩

/-- One round of the inner loop when there is data. -/
theorem Holds.readMessage (h : p.Holds t l) (hdata : p.readDataAvailable≠0) (hlength : 0<length) :
    ∃ p' piece, p.readMessage length=some (p', piece) ∧ Piece p t length p' piece := by
  obtain ⟨q,hcompact,hq,hlogs,hspan⟩ := h.compact
  have hsame : q.readDataAvailable=p.readDataAvailable := hq.available.trans h.available.symm
  obtain ⟨p',piece,htake,hpiece⟩ := hq.takePiece (by rwa [hsame]) hlength
  refine ⟨p',piece,?_,hpiece.holds,hlogs.trans hpiece.logs,hpiece.short,?_,?_⟩
  · rw [MessagePipe.readMessage,hcompact,Option.bind_some,if_neg (by rwa [hsame]),htake]
  · rw [← hlogs.accepted]
    exact hpiece.isPiece
  · rw [← hspan]
    exact hpiece.progress

theorem Holds.readMessage_empty (h : p.Holds t l) (hdata : p.readDataAvailable=0) (length : Nat) :
    ∃ p', p.readMessage length=some (p', []) ∧ p'.Holds t l ∧ SameLogs p p' ∧
      p'.writePtr-p'.readPtr=p.writePtr-p.readPtr := by
  obtain ⟨q,hcompact,hq,hlogs,hspan⟩ := h.compact
  have hsame : q.readDataAvailable=0 := hq.available.trans (h.available.symm.trans hdata)
  refine ⟨q,?_,hq,hlogs,hspan⟩
  rw [MessagePipe.readMessage,hcompact,Option.bind_some,if_pos hsame]

end Piece

def taken (p : MessagePipe) : List (BitVec 8) := (p.returned.map Prod.snd).flatten

/-- Every read in message mode came back with a piece of one message, the one that was next. -/
def Whole (p : MessagePipe) : Prop :=
  ∀ before piece after, p.returned=before++(.message, piece)::after →
    IsPiece p.accepted (before.map Prod.snd).flatten piece

structure Inv (p : MessagePipe) : Prop where
  holds : ∃ l, p.Holds p.taken l
  waiting : ∀ w∈p.waiting++p.released, 0<w.length ∧ w.length<2^32
  whole : p.Whole

section Read
variable {mode : ReadMode} {data : List (BitVec 8)}

theorem Inv.setWriteEvent (hi : p.Inv) : p.setWriteEvent.Inv := by
  obtain ⟨l,hl⟩ := hi.holds
  refine ⟨⟨l,hl.large,hl.small,hl.quota,hl.stored,hl.available,hl.pending⟩,fun w hw => ?_,hi.whole⟩
  have hw : w∈p.released++p.waiting := hw
  exact hi.waiting w (mem_append.mpr (mem_append.mp hw).symm)

theorem Inv.endRead (hi : p.Inv) (hlogs : SameLogs p p') (h : p'.Holds (p.taken++data) l)
    (hmode : mode = .message → IsPiece p.accepted p.taken data) : (p'.endRead mode data).Inv := by
  have htaken : ({ p' with returned := p'.returned++[(mode, data)] } : MessagePipe).taken =
      p.taken++data := by
    simp [taken,hlogs.returned]
  have hlog : ({ p' with returned := p'.returned++[(mode, data)] } : MessagePipe).Inv := by
    refine ⟨⟨l,?_⟩,?_,fun before piece after hsplit => ?_⟩
    · rw [htaken]
      exact ⟨h.large,h.small,h.quota,h.stored,h.available,h.pending⟩
    · rw [hlogs.waiting,hlogs.released]
      exact hi.waiting
    · have hreturned : p.returned++[(mode, data)]=before++(.message, piece)::after := by
        rw [← hsplit,hlogs.returned]
      rw [hlogs.accepted]
      obtain rfl | ⟨after,last,rfl⟩ := after.eq_nil_or_concat'
      · obtain ⟨hbefore,hlast⟩ := append_inj' hreturned rfl
        obtain ⟨hm,rfl⟩ := Prod.mk.inj (singleton_inj.mp hlast)
        rw [← hbefore]
        exact hmode hm
      · rw [← cons_append,← append_assoc] at hreturned
        exact hi.whole before piece after (append_inj' hreturned rfl).1
  rw [MessagePipe.endRead]
  split
  · exact hlog.setWriteEvent
  · exact hlog

theorem Inv.of_sameLogs (hi : p.Inv) (hlogs : SameLogs p p') (h : p'.Holds p.taken l) : p'.Inv := by
  have htaken : p'.taken=p.taken := by rw [taken,taken,hlogs.returned]
  refine ⟨⟨l,by rwa [htaken]⟩,?_,?_⟩
  · rw [hlogs.waiting,hlogs.released]
    exact hi.waiting
  · intro before piece after hsplit
    rw [hlogs.accepted]
    exact hi.whole before piece after (by rw [← hlogs.returned,hsplit])

/-- The inner loop of a read comes to its end, with the data in a piece of one message if it reads
in message mode. -/
theorem Inv.serveRead (hi : p.Inv) {q : MessagePipe} {fuel length : Nat} {resumed : Bool}
    (hlogs : SameLogs p q) (hq : ∃ l, q.Holds (p.taken++data) l)
    (hdata : data≠[] → q.readDataAvailable≠0 ∧ mode = .byteStream) (hlength : 0<length)
    (hfuel : q.writePtr-q.readPtr+resumed.toNat<fuel) :
    ∃ p', serveRead mode fuel resumed q length data=some p' ∧ p'.Inv := by
  induction fuel generalizing q length data resumed with
  | zero => exact absurd hfuel (Nat.not_lt_zero _)
  | succ fuel ih =>
    obtain ⟨l,hq⟩ := hq
    rw [MessagePipe.serveRead]
    by_cases hempty : q.readDataAvailable=0
    · obtain rfl : data=[] := by
        by_contra hne
        exact (hdata hne).1 hempty
      rw [append_nil] at hq
      cases resumed with
      | false =>
        rw [if_pos ⟨hempty,rfl⟩]
        exact ⟨_,rfl,(hi.of_sameLogs hlogs hq).setWriteEvent⟩
      | true =>
        obtain ⟨q',hread,hq',hlogs',hspan⟩ := hq.readMessage_empty hempty length
        rw [if_neg (by simp),hread]
        dsimp only
        refine ih (hlogs.trans hlogs') ⟨l,by rwa [append_nil]⟩ (absurd rfl)
          hlength ?_
        rw [hspan]
        exact Nat.lt_of_succ_lt_succ hfuel
    · obtain ⟨q',piece,hread,hpiece⟩ := hq.readMessage hempty hlength
      obtain ⟨l',hq'⟩ := hpiece.holds
      rw [append_assoc] at hq'
      rw [if_neg (fun h => hempty h.1),hread]
      dsimp only
      have hless : q'.readDataAvailable≠0 → q'.writePtr-q'.readPtr+false.toNat<fuel := by
        intro hne
        have hprogress := (hpiece.progress.resolve_right fun h => hne h.1).2
        rw [Bool.toNat_false]
        omega
      by_cases hnone : data++piece=[]
      · rw [if_pos hnone]
        obtain ⟨rfl,rfl⟩ := append_eq_nil_iff.mp hnone
        have hmore := (hpiece.progress.resolve_right fun h => h.2 rfl).1
        exact ih (hlogs.trans hpiece.logs) ⟨l',hq'⟩ (absurd rfl) hlength (hless hmore)
      · rw [if_neg hnone]
        by_cases hmore : mode = .byteStream ∧ q'.readDataAvailable≠0 ∧ piece.length<length
        · rw [if_pos hmore]
          exact ih (hlogs.trans hpiece.logs) ⟨l',hq'⟩ (fun _ => ⟨hmore.2.1,hmore.1⟩) (by omega)
            (hless hmore.2.1)
        · rw [if_neg hmore]
          refine ⟨_,rfl,hi.endRead (hlogs.trans hpiece.logs) hq' fun hmode => ?_⟩
          obtain rfl : data=[] := by
            by_contra hne
            exact absurd ((hdata hne).2.symm.trans hmode) (by decide)
          rw [← hlogs.accepted]
          have hisPiece := hpiece.isPiece
          rwa [append_nil] at hisPiece

theorem Inv.npfsRead (hi : p.Inv) (resumed : Bool) (hlength : 0<length) :
    ∃ p', p.npfsRead mode resumed length=some p' ∧ p'.Inv := by
  obtain ⟨l,hl⟩ := hi.holds
  have hquota := hl.quota
  have hone := resumed.toNat_le
  refine hi.serveRead ⟨rfl,rfl,rfl,rfl⟩ ⟨l,by rwa [append_nil]⟩
    (fun hne => absurd rfl hne) hlength ?_
  omega

end Read

section Write
variable {w : Writer}

theorem ulongSub_quota (h : p.Holds t l) (hquota : lengthSize≤p.writeQuotaAvailable) :
    ulongSub p.writeQuotaAvailable lengthSize=p.writeQuotaAvailable-lengthSize := by
  have hsmall := h.small
  have htotal := h.quota
  exact ulongSub_of_le hquota (by omega)

theorem Inv.waitForQuota (hi : p.Inv) (hw : 0<w.length ∧ w.length<2^32) :
    (p.waitForQuota w).Inv := by
  obtain ⟨l,hl⟩ := hi.holds
  have hall : ∀ v, v∈p.waiting++p.released ∨ v=w → 0<v.length ∧ v.length<2^32 := by
    rintro v (hv | rfl)
    · exact hi.waiting v hv
    · exact hw
  rw [MessagePipe.waitForQuota]
  split
  all_goals
    refine ⟨⟨l,hl.large,hl.small,hl.quota,hl.stored,hl.available,hl.pending⟩,fun v hv => ?_,
      hi.whole⟩
    refine hall v ?_
    simp only [mem_append,mem_singleton] at hv ⊢
    tauto

/-- The message branch of a write, with room for the length and perhaps some of the data. -/
theorem Inv.writeMessage (hi : p.Inv) (hquota : lengthSize≤p.writeQuotaAvailable)
    (hw : 0<w.length ∧ w.length<2^32) : ∃ p', p.writeMessage w=some p' ∧ p'.Inv := by
  obtain ⟨l,hl⟩ := hi.holds
  have hsmall := hl.small
  have htotal := hl.quota
  have hflatten := hl.stored.flatten_le
  have havailable := hl.available
  have hsize : lengthSize=4 := rfl
  rw [MessagePipe.writeMessage,ulongSub_quota hl hquota]
  obtain ⟨n,hn⟩ : ∃ n, n=min w.length (p.writeQuotaAvailable-lengthSize) := ⟨_,rfl⟩
  rw [← hn,if_pos (by omega),ulongSub_of_le (by omega) (by omega),ulong_of_lt (by omega)]
  have hlength : (bytes w.buffer 0 n).length=n := length_bytes w.buffer 0 n
  have hframed : Framed (copy (write32 p.mem p.writePtr (BitVec.ofNat 32 n)) (p.writePtr+lengthSize)
      w.buffer 0 n) p.readPtr (l++[bytes w.buffer 0 n])
      (p.writePtr+lengthSize+(bytes w.buffer 0 n).length) := by
    refine hl.stored.write (by omega) (fun i _ hi => ?_) ?_ ?_
    · rw [copy_of_lt _ _ (by omega),write32_of_lt _ _ (by omega)]
    · rw [read32_copy_of_disjoint _ _ (by omega),read32_write32,hlength]
    · rw [hlength]
      exact bytes_copy _ _ _ _ _
  rw [hlength] at hframed
  have hholds : ∀ event waiting released, ({ p with
      mem := copy (write32 p.mem p.writePtr (BitVec.ofNat 32 n))
        (p.writePtr+lengthSize) w.buffer 0 n
      writePtr := p.writePtr+lengthSize+n
      readDataAvailable := p.readDataAvailable+n
      writeQuotaAvailable := p.writeQuotaAvailable-(n+lengthSize)
      accepted := p.accepted++[bytes w.buffer 0 n]
      writeEvent := event
      waiting := waiting
      released := released } : MessagePipe).Holds p.taken (l++[bytes w.buffer 0 n]) := by
    intro event waiting released
    refine ⟨hl.large,hl.small,?_,hframed,?_,hl.pending.accept _⟩
    · dsimp only
      omega
    · simp [havailable]
  have hwhole : ∀ before piece after, p.returned=before++(.message, piece)::after →
      IsPiece (p.accepted++[bytes w.buffer 0 n]) (before.map Prod.snd).flatten piece :=
    fun before piece after hsplit => (hi.whole before piece after hsplit).accept _
  refine ⟨_,rfl,?_⟩
  split
  · exact ⟨⟨_,hholds _ _ _⟩,hi.waiting,hwhole⟩
  · exact Inv.waitForQuota ⟨⟨_,hholds _ _ _⟩,hi.waiting,hwhole⟩ hw

/-- Without room for the length the write leaves the buffer. -/
theorem Inv.writeMessage_none (hi : p.Inv) (hquota : p.writeQuotaAvailable<lengthSize) :
    p.writeMessage w=none := by
  obtain ⟨l,hl⟩ := hi.holds
  have htotal := hl.quota
  exact if_neg (by omega)

/-- A write stops to wait, or goes on, and is taken off its list. -/
theorem Inv.erase (hi : p.Inv) {waiting released : List Writer} (hw : waiting <+ p.waiting)
    (hr : released <+ p.released) : { p with waiting, released }.Inv := by
  obtain ⟨l,hl⟩ := hi.holds
  exact ⟨⟨l,hl.large,hl.small,hl.quota,hl.stored,hl.available,hl.pending⟩,
    fun w hmem => hi.waiting w ((hw.append hr).mem hmem),hi.whole⟩

end Write

/-- The lengths are `ULONG`s that are not zero. -/
def Admitted (_ : MessagePipe) : Action → Prop
  | .write w => 0<w.length ∧ w.length<2^32
  | .wake _ => True
  | .alert _ => True
  | .read _ _ length => 0<length ∧ length<2^32

/-- A write that gets to the message branch finds room for the length. -/
def Harmless (p : MessagePipe) : Action → Prop
  | .write _ => p.writeQuotaAvailable=0 ∨ lengthSize≤p.writeQuotaAvailable
  | .wake i => i<p.released.length → lengthSize≤p.writeQuotaAvailable
  | .alert _ => True
  | .read _ _ _ => True

/-- The quota is at most the size, what the reads got is what the messages begin with, and each read
in message mode got a piece of one message. -/
structure Lawful (p : MessagePipe) : Prop where
  quota : p.writeQuotaAvailable≤p.maxDataLength
  order : p.taken <+: p.accepted.flatten
  whole : p.Whole

theorem Inv.lawful (hi : p.Inv) : p.Lawful := by
  obtain ⟨l,hl⟩ := hi.holds
  have htotal := hl.quota
  exact ⟨by omega,⟨l.flatten,hl.pending.flatten⟩,hi.whole⟩

theorem Inv.step (hi : p.Inv) (hadmitted : p.Admitted a) (hharmless : p.Harmless a) :
    ∃ p', p.step a=some p' ∧ p'.Inv := by
  cases a with
  | write w =>
    rw [MessagePipe.step,npfsWrite]
    by_cases hzero : p.writeQuotaAvailable=0
    · rw [if_pos hzero]
      exact ⟨_,rfl,hi.waitForQuota hadmitted⟩
    · rw [if_neg hzero]
      exact hi.writeMessage (hharmless.resolve_left hzero) hadmitted
  | wake i =>
    rw [MessagePipe.step,resumeWrite]
    cases hw : p.released[i]? with
    | none => exact ⟨p,rfl,hi⟩
    | some w =>
      obtain ⟨hlt,-⟩ := List.getElem?_eq_some_iff.mp hw
      exact (hi.erase (Sublist.refl _) (eraseIdx_sublist ..)).writeMessage (hharmless hlt)
        (hi.waiting w (mem_append_right _ (mem_of_getElem? hw)))
  | alert i => exact ⟨_,rfl,hi.erase (eraseIdx_sublist ..) (Sublist.refl _)⟩
  | read mode resumed length => exact hi.npfsRead resumed hadmitted.1

/-- A write without room for the length leaves the buffer. -/
theorem Inv.step_none (hi : p.Inv) (hharmless : ¬p.Harmless a) : p.step a=none := by
  cases a with
  | write w =>
    rw [Harmless,not_or] at hharmless
    rw [MessagePipe.step,npfsWrite,if_neg hharmless.1]
    exact hi.writeMessage_none (Nat.lt_of_not_le hharmless.2)
  | wake i =>
    simp only [Harmless,not_forall] at hharmless
    obtain ⟨hlt,hquota⟩ := hharmless
    rw [MessagePipe.step,resumeWrite,getElem?_eq_getElem hlt]
    exact (hi.erase (Sublist.refl _) (eraseIdx_sublist ..)).writeMessage_none
      (Nat.lt_of_not_le hquota)
  | alert | read => exact absurd trivial hharmless

def newMessagePipe (mem : Mem) (maxDataLength : Nat) : MessagePipe where
  mem := mem
  maxDataLength := maxDataLength
  readPtr := 0
  writePtr := 0
  readDataAvailable := 0
  writeQuotaAvailable := maxDataLength
  writeEvent := false
  waiting := []
  released := []
  accepted := []
  returned := []

theorem inv_newMessagePipe (hlarge : lengthSize< maxDataLength)
    (hsmall : maxDataLength<2^32) : (newMessagePipe mem maxDataLength).Inv :=
  ⟨⟨[],hlarge,hsmall,Nat.add_zero _,.nil _,rfl,rfl⟩,by simp [newMessagePipe],by
    simp [Whole,newMessagePipe]⟩

instance (p : MessagePipe) : DecidablePred p.Admitted
  | .write w => inferInstanceAs (Decidable (0<w.length ∧ w.length<2^32))
  | .wake _ | .alert _ => inferInstanceAs (Decidable True)
  | .read _ _ length => inferInstanceAs (Decidable (0<length ∧ length<2^32))

instance (p : MessagePipe) : DecidablePred p.Harmless
  | .write _ => inferInstanceAs
      (Decidable (p.writeQuotaAvailable=0 ∨ lengthSize≤p.writeQuotaAvailable))
  | .wake i => inferInstanceAs
      (Decidable (i<p.released.length → lengthSize≤p.writeQuotaAvailable))
  | .alert _ | .read _ _ _ => inferInstanceAs (Decidable True)

section Runs
open GuardedRuns

theorem throughout_harmless {actions : List Action}
    (hlarge : lengthSize< maxDataLength) (hsmall : maxDataLength<2^32)
    (hadmitted : Throughout step Admitted (newMessagePipe mem maxDataLength) actions)
    (h : Always step Lawful (newMessagePipe mem maxDataLength) actions) :
    Throughout step Harmless (newMessagePipe mem maxDataLength) actions :=
  h.throughout (fun _ _ hi => hi.step)
    (fun _ _ _ hi _ hharmless hstep => absurd (hi.step_none hharmless) (by simp [hstep]))
    (inv_newMessagePipe hlarge hsmall) hadmitted

/-- A message pipe stays inside its buffer and keeps its messages intact exactly if every write that
gets to the message branch finds room for the length. -/
theorem message_pipe_lawful_iff (mem : Mem) (maxDataLength : Nat) (actions : List Action)
    (hlarge : lengthSize< maxDataLength) (hsmall : maxDataLength<2^32)
    (hadmitted : Throughout step Admitted (newMessagePipe mem maxDataLength) actions) :
    Always step Lawful (newMessagePipe mem maxDataLength) actions ↔
      Throughout step Harmless (newMessagePipe mem maxDataLength) actions := by
  refine ⟨throughout_harmless hlarge hsmall hadmitted,fun h => ?_⟩
  exact h.always (fun _ hi => hi.lawful) (fun _ _ hi => hi.step) (inv_newMessagePipe hlarge hsmall)
    hadmitted

/-- A write waits until the message in front of it is read, and its own message is read in part. -/
def waitingWrite : List Action :=
  [.write ⟨fun i => BitVec.ofNat 8 i,12⟩,.write ⟨fun _ => 7,3⟩,.read .message false 12,.wake 0,
    .read .message false 2]

theorem message_pipe_lawful_sixteen :
    Always step Lawful (newMessagePipe (fun _ => 0) 16) waitingWrite :=
  (message_pipe_lawful_iff (fun _ => 0) 16 _ (by decide) (by decide) (by decide +kernel)).mpr
    (by decide +kernel)

def twoWrites : List Action := [.write ⟨fun _ => 7,3⟩,.write ⟨fun _ => 7,1⟩]

/-- After a message of three bytes in a buffer of ten there is no room for another length. -/
theorem message_pipe_not_lawful_ten :
    Throughout step Admitted (newMessagePipe (fun _ => 0) 10) twoWrites ∧
      ¬Always step Lawful (newMessagePipe (fun _ => 0) 10) twoWrites := by
  have hadmitted : Throughout step Admitted (newMessagePipe (fun _ => 0) 10) twoWrites := by
    decide +kernel
  refine ⟨hadmitted,fun h => ?_⟩
  exact absurd (throughout_harmless (by decide) (by decide) hadmitted h) (by decide +kernel)

end Runs

end MessagePipe

end Odyssey.Npfs
