import Xv6.Pipe

namespace Xv6

open Bytes

variable {P : Type} [DecidableEq P] {s u : PipeSys P} {p q : P}

/-- The pipe passes on what was stored, all of it and in order, and a read ends with 0 only at
the end of the file. -/
structure PipeSys.Fifo (s : PipeSys P) : Prop where
  inOrder : s.delivered <+: s.stored
  unread : s.stored = s.delivered ++ s.pipe.ring.contents
  bound : (s.pipe.nwrite - s.pipe.nread).toNat ≤ PIPESIZE
  eof : ∀ q n, s.pc q = .readRelease n 0 → 0 < n → s.delivered = s.stored ∧ s.pipe.writeopen = false

/-- What a reader that has read nothing knows of the pipe. -/
def PipeBuf.AtEof (b : PipeBuf) : PipePc → Prop
  | .readCopy _ 0 => ¬ (b.empty ∧ b.writeopen = true)
  | .readWake n 0 | .readRelease n 0 => 0 < n → b.empty ∧ b.writeopen = false
  | _ => True

structure PipeSys.Flow (s : PipeSys P) : Prop where
  holder : s.Holder
  bound : s.pipe.ring.count ≤ PIPESIZE
  unread : s.stored = s.delivered ++ s.pipe.ring.contents
  eof : ∀ q, s.pipe.AtEof (s.pc q)

theorem PipeBuf.empty_iff {b : PipeBuf} : b.empty ↔ b.ring.count = 0 :=
  (RingBuffer.count_eq_zero (r := b.ring)).symm

theorem PipeBuf.full_iff {b : PipeBuf} : b.full ↔ b.ring.count = PIPESIZE :=
  (RingBuffer.count_eq_capacity (r := b.ring) (by decide)).symm

omit [DecidableEq P] in
theorem PipeSys.Flow.fifo (hs : s.Flow) : s.Fifo where
  inOrder := ⟨s.pipe.ring.contents, hs.unread.symm⟩
  unread := hs.unread
  bound := hs.bound
  eof q n hq hn := by
    have heof := hs.eof q
    rw [hq] at heof
    obtain ⟨hempty, hclosed⟩ := heof hn
    have hcount := PipeBuf.empty_iff.mp hempty
    refine ⟨?_, hclosed⟩
    rw [hs.unread]
    simp [RingBuffer.contents, hcount]

theorem PipeBuf.atEof_of_not_holds {b : PipeBuf} {c : PipePc} (h : c.holds = false) :
    b.AtEof c := by
  cases c <;> trivial

theorem PipeSys.Flow.eof_other (hs : s.Flow) (h : s.Move p u) (hq : q ≠ p) :
    u.pipe.AtEof (u.pc q) := by
  rw [h.pc_other hq]
  rcases h.pipe_cases with hpipe | hp
  · rw [hpipe]
    exact hs.eof q
  · exact PipeBuf.atEof_of_not_holds (hs.holder.ne_of_holds hp hq)

theorem PipeSys.Flow.eof_self (hs : s.Flow) (h : s.Move p u) : u.pipe.AtEof (u.pc p) := by
  have hold := hs.eof p
  cases h with
  | readGo hpc hgo => simpa [PipeBuf.AtEof, PipeSys.goto] using hgo
  | @copied n i hpc hstop =>
    rw [hpc] at hold
    cases i with
    | succ i => simp [PipeBuf.AtEof]
    | zero =>
      simp only [PipeSys.goto_pc_self]
      intro hn
      have hempty := hstop.resolve_left (by simpa using hn)
      have hclosed : s.pipe.writeopen = false := by simpa using fun hopen => hold ⟨hempty, hopen⟩
      exact ⟨hempty, hclosed⟩
  | @readWake n i hpc hp =>
    rw [hpc] at hold
    cases i with
    | succ i => simp [PipeBuf.AtEof]
    | zero =>
      simp only [PipeSys.goto_pc_self]
      exact hold
  | _ => simp [PipeBuf.AtEof]

theorem PipeSys.Flow.move (hs : s.Flow) (h : s.Move p u) : u.Flow := by
  have heof : ∀ q, u.pipe.AtEof (u.pc q) := by
    intro q
    by_cases hq : q = p
    · subst hq
      exact hs.eof_self h
    · exact hs.eof_other h hq
  have hholder := hs.holder.move h
  have hbound := hs.bound
  cases h with
  | @store addr n start i hpc hroom =>
    have hlt : s.pipe.ring.count < PIPESIZE :=
      Nat.lt_of_le_of_ne hbound fun he => hroom (PipeBuf.full_iff.mpr he)
    refine ⟨hholder, ?_, ?_, heof⟩
    · have hcount := RingBuffer.count_push (a := addr i) hlt (by decide)
      show (s.pipe.ring.push (addr i)).count ≤ PIPESIZE
      omega
    · show s.stored ++ [addr i] = s.delivered ++ (s.pipe.ring.push (addr i)).contents
      rw [RingBuffer.contents_push hlt (by decide) (by decide), hs.unread, List.append_assoc]
  | deliver hpc hsome =>
    have hpos : 0 < s.pipe.ring.count :=
      Nat.pos_of_ne_zero fun he => hsome (PipeBuf.empty_iff.mpr he)
    refine ⟨hholder, ?_, ?_, heof⟩
    · have hcount := RingBuffer.count_pop hpos
      show s.pipe.ring.pop.count ≤ PIPESIZE
      omega
    · show s.stored = (s.delivered ++ [s.pipe.ring.front]) ++ s.pipe.ring.pop.contents
      rw [hs.unread, RingBuffer.contents_pop hpos (by decide)]
      simp
  | @closeSet w hpc =>
    have hring : ∀ w : Bool, PipeBuf.ring (if w then { s.pipe with writeopen := false }
        else { s.pipe with readopen := false }) = s.pipe.ring := by
      intro w
      cases w <;> rfl
    refine ⟨hholder, ?_, ?_, heof⟩
    · simpa only [PipeSys.goto, hring] using hbound
    · simpa only [PipeSys.goto, hring] using hs.unread
  | _ => exact ⟨hholder, hbound, hs.unread, heof⟩

theorem PipeSys.Flow.step [Fintype P] {e : PipeEvent P} (hs : s.Flow) (h : s.step e = some u) :
    u.Flow := by
  have hholder := hs.holder.step h
  rcases PipeSys.step_cases h with ⟨p, hm⟩ | ⟨p, c, a, b, hc, _, rfl⟩ | ⟨p, rfl⟩
  · exact hs.move hm
  · refine ⟨hholder, hs.bound, hs.unread, fun q => ?_⟩
    by_cases hqp : q = p
    · subst hqp
      rw [PipeSys.goto_pc_self]
      exact PipeBuf.atEof_of_not_holds hc
    · rw [PipeSys.goto_pc_other hqp]
      exact hs.eof q
  · exact ⟨hholder, hs.bound, hs.unread, hs.eof⟩

omit [DecidableEq P] in
theorem PipeSys.init_flow (data : Fin PIPESIZE → Byte) : (PipeSys.init data : PipeSys P).Flow where
  holder q hq := by simp [PipeSys.init, PipePc.holds] at hq
  bound := by simp [PipeSys.init, PipeBuf.new, PipeBuf.ring, RingBuffer.count]
  unread := by simp [PipeSys.init, PipeBuf.new, PipeBuf.ring, RingBuffer.contents, RingBuffer.count]
  eof _ := trivial

/-- Whatever readers and writers do, the pipe is a lossless queue in every state. -/
theorem pipe_fifo [Fintype P] {data : Fin PIPESIZE → Byte} {l : List (PipeEvent P)} {s : PipeSys P}
    (h : Runs.exec PipeSys.step (PipeSys.init data) l = some s) : s.Fifo :=
  (Runs.invariant (PipeSys.init_flow data) (fun _ _ _ hs hstep => hs.step hstep) h).fifo

/-- Process false writes three bytes, and process true reads them. -/
def threeByteRun : List (PipeEvent Bool) :=
  .write false (fun i => BitVec.ofNat 8 (i + 7)) 3 :: List.replicate 7 (.step false) ++
    .read true 3 :: List.replicate 6 (.step true)

theorem pipe_fifo_three_bytes :
    ∃ s : PipeSys Bool, Runs.exec PipeSys.step (PipeSys.init fun _ => 0) threeByteRun = some s ∧
      s.delivered = [7, 8, 9] ∧ s.Fifo := by
  have hrun : (Runs.exec PipeSys.step (PipeSys.init fun _ => 0 : PipeSys Bool) threeByteRun).map
      (fun s => s.delivered) = some [7, 8, 9] := by decide +kernel
  obtain ⟨s, hs, hd⟩ := Option.map_eq_some_iff.mp hrun
  exact ⟨s, hs, hd, pipe_fifo hs⟩

end Xv6
