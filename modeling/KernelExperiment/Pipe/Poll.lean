import KernelExperiment.Pipe.Fifo

/-! `scull_p_poll` beside the transfers that it promises. The free space and the queued bytes of an
intact pipe add up to its size less one, so the three ways to tell an empty or a full buffer agree. -/

namespace KernelExperiment.Pipe
open Kernel Region Runs

/-- `POLLIN | POLLRDNORM` and `POLLOUT | POLLWRNORM` of the mask. -/
structure PollMask where
  readable : Bool
  writable : Bool
  deriving DecidableEq

/-- The return of a call on a file with `O_NONBLOCK`. -/
def Transfer.nonblock : Transfer → Except Errno (List Byte)
  | .wait => .error .eagain
  | .efault => .error .efault
  | .done bytes => .ok bytes

namespace ScullPipe

def scullPPoll (dev : ScullPipe) : Option PollMask :=
  dev.spacefree.map fun space : Int =>
    { readable := decide (dev.rp ≠ dev.wp), writable := decide (space ≠ 0) }

/-- `scull_p_read` with `O_NONBLOCK` and the semaphore at hand. -/
def nonblockRead (dev : ScullPipe) (count : ℕ) (fault : Option ℕ) :
    Option (Except Errno (List Byte)) :=
  (dev.readSection count fault).map fun r => r.1.nonblock

def nonblockWrite (dev : ScullPipe) (buf : List Byte) (fault : Option ℕ) :
    Option (Except Errno (List Byte)) :=
  (dev.writeSection buf fault).map fun r => r.1.nonblock

variable {dev : ScullPipe} {mem : List Byte} {space : Int}

/-- The pointer difference in `spacefree` fits in an `int` for a buffer of up to 1 GiB. -/
theorem Intact.spacefree_queue (h : Intact dev mem) (hmax : mem.length ≤ 1073741824) :
    dev.spacefree = some ((mem.length : Int) - 1 - dev.queue.length) := by
  have hrp := h.rp_lt
  have hwp := h.wp_lt
  rw [h.queue_eq, Ring.length_content hrp hwp]
  rcases Nat.lt_or_ge dev.wp dev.rp with hlt | hge
  · have hzero : dev.buffersize ≠ 0 := by
      intro hz
      have hsize := h.size
      rw [hz, Int32.toInt_zero] at hsize
      omega
    have hlong : toLong (dev.rp + dev.buffersize.toInt - dev.wp) =
        (dev.rp - dev.wp) + (mem.length : Int) := by
      rw [h.size, toLong_of_lt (by omega) (by omega)]
      omega
    rw [spacefree, if_neg (Nat.ne_of_gt hlt), if_neg hzero, hlong, h.size, if_neg (by omega),
      Int.tmod_eq_emod_of_nonneg (by omega), Int.add_emod_right,
      Int.emod_eq_of_lt (by omega) (by omega)]
    congr 1
    omega
  · rw [h.spacefree_eq hge, if_pos hge]
    congr 1
    omega

theorem Intact.readCount_pos (h : Intact dev mem) {count : ℕ} (hcount : 1 ≤ count) :
    1 ≤ dev.readCount count := by
  have hrp := h.rp_lt
  have hwp := h.wp_lt
  have hint := dev.buffersize.toInt_lt
  have hsize := h.size
  rw [readCount]
  split_ifs with hlt
  · rw [sizeT_of_lt] <;> omega
  · rw [h.last, sizeT_of_lt] <;> omega

theorem Intact.writeCount_pos (h : Intact dev mem) (hmax : mem.length ≤ 1073741824)
    (hs : dev.spacefree = some space) (hne : space ≠ 0) {count : ℕ} (hcount : 1 ≤ count) :
    1 ≤ dev.writeCount space count := by
  have hrp := h.rp_lt
  have hwp := h.wp_lt
  have hlen := Ring.length_content hrp hwp
  have hqueue := h.length_queue_le
  rw [h.queue_eq] at hqueue
  rw [h.spacefree_queue hmax, h.queue_eq, Option.some.injEq] at hs
  have hroom : 1 ≤ sizeT space := by
    rw [sizeT_of_lt] <;> omega
  rw [writeCount]
  split_ifs with hge
  · have hend : 1 ≤ sizeT (dev.bufferEnd - dev.wp) := by
      rw [h.last, sizeT_of_lt] <;> omega
    omega
  · rw [if_neg (by omega)] at hlen
    have hfree : 1 ≤ sizeT ((dev.rp : Int) - dev.wp - 1) := by
      rw [sizeT_of_lt] <;> omega
    omega

/-- A read of a pipe with queued bytes returns some, and of an empty one `-EAGAIN`. -/
theorem Intact.nonblockRead_eq (h : Intact dev mem) {count : ℕ} (hcount : 1 ≤ count) :
    if dev.rp ≠ dev.wp then
      ∃ bytes, dev.nonblockRead count none = some (.ok bytes) ∧ 1 ≤ bytes.length
    else ∀ fault, dev.nonblockRead count fault = some (.error .eagain) := by
  split_ifs with hne
  · have hfits := h.readCount_fits hne count
    have hpos := h.readCount_pos hcount
    have hbound : dev.rp + dev.readCount count ≤ mem.length := by
      have hwp := h.wp_lt
      split_ifs at hfits <;> omega
    refine ⟨(mem.drop dev.rp).take (dev.readCount count), ?_, ?_⟩
    · rw [nonblockRead, readSection, if_neg hne, h.buffer, Option.bind_some,
        readRange_of_le hbound, Option.map_some, if_pos (copyOk_none _), Option.map_some]
      rfl
    · rw [List.length_take, List.length_drop]
      omega
  · intro fault
    rw [nonblockRead, readSection, if_pos (not_not.mp hne)]
    rfl

theorem Intact.nonblockWrite_eq (h : Intact dev mem) (hmax : mem.length ≤ 1073741824)
    (hs : dev.spacefree = some space) {buf : List Byte} (hbuf : 1 ≤ buf.length) :
    if space ≠ 0 then
      ∃ bytes, dev.nonblockWrite buf none = some (.ok bytes) ∧ 1 ≤ bytes.length
    else ∀ fault, dev.nonblockWrite buf fault = some (.error .eagain) := by
  split_ifs with hne
  · have hpos := h.writeCount_pos hmax hs hne hbuf
    have hle := (dev.writeCount_le space buf.length).1
    have hend := (h.writeCount_fits hs buf.length).1
    obtain ⟨n, hn⟩ : ∃ n, n = dev.writeCount space buf.length := ⟨_, rfl⟩
    obtain ⟨bs, hbs⟩ : ∃ bs, bs = copiedIn (buf.take n) none := ⟨_, rfl⟩
    have hlen : bs.length = n := by
      rw [hbs, length_copiedIn, List.length_take]
      omega
    rw [← hn] at hpos hle hend
    refine ⟨buf.take n, ?_, ?_⟩
    · rw [nonblockWrite, writeSection, hs, Option.bind_some, if_neg hne, h.buffer, ← hn]
      dsimp only
      rw [Option.bind_some, ← hbs, writeRange_of_le (hlen.symm ▸ hend), Option.map_some,
        if_pos (copyOk_none _), Option.map_some]
      rfl
    · rw [List.length_take]
      omega
  · intro fault
    rw [nonblockWrite, writeSection, hs, Option.bind_some, if_pos (not_not.mp hne)]
    rfl

end ScullPipe

/-- A transfer that poll has reported moves at least a byte, and one that it has not reported does
not. -/
def Promised (ready : Bool) (call : Option ℕ → Option (Except Errno (List Byte))) : Prop :=
  if ready then ∃ bytes, call none = some (.ok bytes) ∧ 1 ≤ bytes.length
  else ∀ fault, call fault = some (.error .eagain)

/-- The mask is right about the next transfers of a pipe of `n` bytes. -/
structure PollAgrees (dev : ScullPipe) (n : ℕ) (mask : PollMask) (space : Int) : Prop where
  poll : dev.scullPPoll = some mask
  read : ∀ count ≥ 1, Promised mask.readable (dev.nonblockRead count)
  write : ∀ buf : List Byte, 1 ≤ buf.length → Promised mask.writable (dev.nonblockWrite buf)
  free : dev.spacefree = some space
  nonneg : 0 ≤ space
  total : dev.queue.length + space = n - 1

theorem ScullPipe.Intact.pollAgrees {dev : ScullPipe} {mem : List Byte} (h : dev.Intact mem)
    (hmax : mem.length ≤ 1073741824) : ∃ mask space, PollAgrees dev mem.length mask space := by
  have hfree := h.spacefree_queue hmax
  have hqueue := h.length_queue_le
  have hpos := h.length_pos
  refine ⟨_, _, by rw [ScullPipe.scullPPoll, hfree, Option.map_some], fun count hcount => ?_,
    fun buf hbuf => ?_, hfree, by omega, by omega⟩
  · have hread := h.nonblockRead_eq hcount
    simpa only [Promised, decide_eq_true_eq] using hread
  · have hwrite := h.nonblockWrite_eq hmax hfree hbuf
    simpa only [Promised, decide_eq_true_eq] using hwrite

variable {P F : Type*} [DecidableEq P] [DecidableEq F] [Fintype P]

/-- In every state that reads and writes of an open pipe lead to, poll agrees with the transfers. All
that is asked of `kmalloc` is that it gives out no block of more than 1 GiB. -/
theorem pollAgrees_of_ready {kmalloc : ℕ → Option (ℕ → Byte)}
    (hmax : ∀ n, (kmalloc n).isSome → n ≤ 1073741824) {n : ℕ} {s : Sys P F} (h : Ready n s)
    (hbuf : s.dev.buffer = (kmalloc n).map (block n)) (as : List (Act P F))
    (has : ∀ a ∈ as, a.isTransfer) :
    Always step (fun s => ∃ mask space, PollAgrees s.dev n mask space) s as := by
  have hn : n ≤ 1073741824 := by
    obtain ⟨mem, -, hmem⟩ := h.block
    apply hmax n
    rw [hmem.buffer] at hbuf
    rw [← Option.isSome_map (f := block n), ← hbuf]
    rfl
  have hm : Meets step (fun _ a => a.isTransfer) s as := Meets.of_forall fun _ => has
  apply meets_always (fun _ _ _ => Fifo.step) _ h.fifo hm
  rintro s ⟨⟨mem, rfl, hmem⟩, -⟩
  exact hmem.pollAgrees hn

/-- A `kmalloc` that refuses more than 4 MiB and has plenty of less. -/
def upTo4MiB (n : ℕ) : Option (ℕ → Byte) := if n ≤ 4194304 then some fun _ => 0 else none

theorem upTo4MiB_le (n : ℕ) (h : (upTo4MiB n).isSome) : n ≤ 1073741824 := by
  have hle : n ≤ 4194304 := by
    by_contra hgt
    rw [upTo4MiB, if_neg hgt] at h
    cases h
  omega

theorem pollAgrees_threeBytes :
    Always step (fun s => ∃ mask space, PollAgrees s.dev 3 mask space) threeBytes
      [.enter true (.write true [7, 8, 9]), .transfer true none, .enter false (.read false 1),
        .transfer false none, .enter true (.write true [9, 10]), .transfer true none] :=
  pollAgrees_of_ready upTo4MiB_le
    ⟨⟨[0, 0, 0], rfl, rfl, by decide, rfl, by decide, by decide⟩, rfl, rfl, rfl, rfl⟩ rfl _
    (by decide)

end KernelExperiment.Pipe
