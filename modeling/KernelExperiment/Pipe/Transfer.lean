import KernelExperiment.Pipe.Device

/-! Reads and writes of an intact pipe stay inside the buffer. A read takes its bytes from the front
of the queue and a write appends the bytes it accepts. -/

namespace KernelExperiment.Pipe
open Kernel Region

namespace ScullPipe

variable {dev dev' : ScullPipe} {mem : List Byte} {out : Transfer}

/-- The allocation has the size that the device goes by, and both pointers are in it. -/
structure Intact (dev : ScullPipe) (mem : List Byte) : Prop where
  buffer : dev.buffer = some mem
  size : dev.buffersize.toInt = mem.length
  last : dev.bufferEnd = mem.length
  rp_lt : dev.rp < mem.length
  wp_lt : dev.wp < mem.length

theorem Intact.queue_eq (h : Intact dev mem) : dev.queue = Ring.content mem dev.rp dev.wp := by
  rw [queue, h.buffer]

theorem Intact.length_pos (h : Intact dev mem) : 0 < mem.length :=
  Nat.lt_of_le_of_lt (Nat.zero_le _) h.rp_lt

theorem Intact.length_queue_le (h : Intact dev mem) : dev.queue.length ≤ mem.length - 1 := by
  rw [h.queue_eq]
  exact Ring.length_content_le h.rp_lt h.wp_lt

theorem Intact.wrapped_eq (h : Intact dev mem) (i : ℕ) :
    dev.wrapped i = Ring.wrap mem.length i := by
  simp only [wrapped, Ring.wrap, h.last, Int.ofNat_inj]

theorem Intact.moveRp (h : Intact dev mem) {i : ℕ} (hi : i < mem.length) :
    Intact { dev with buffer := some mem, rp := i } mem :=
  ⟨rfl, h.size, h.last, hi, h.wp_lt⟩

theorem Intact.store (h : Intact dev mem) {mem' : List Byte} (hlen : mem'.length = mem.length)
    {i : ℕ} (hi : i < mem.length) : Intact { dev with buffer := some mem', wp := i } mem' :=
  ⟨rfl, by rw [hlen, h.size], by rw [hlen, h.last], by rw [hlen]; exact h.rp_lt,
    by rw [hlen]; exact hi⟩

/-- The remainder in `spacefree` does not wrap while the reader is behind the writer. -/
theorem Intact.spacefree_eq (h : Intact dev mem) (hle : dev.rp ≤ dev.wp) :
    dev.spacefree = some ((mem.length : Int) - (dev.wp - dev.rp) - 1) := by
  have hint := dev.buffersize.toInt_lt
  have hsize := h.size
  have hpos := h.length_pos
  have hrp := h.rp_lt
  have hwp := h.wp_lt
  rcases Nat.eq_or_lt_of_le hle with he | hlt
  · rw [spacefree, if_pos he, h.size, he]
    simp
  · have hzero : dev.buffersize ≠ 0 := by
      intro hz
      rw [hz, Int32.toInt_zero] at hsize
      omega
    have hlong : toLong (dev.rp + dev.buffersize.toInt - dev.wp) =
        (mem.length : Int) - (dev.wp - dev.rp) := by
      rw [toLong_of_lt (by omega) (by omega)]
      omega
    rw [spacefree, if_neg (Nat.ne_of_lt hlt), if_neg hzero, hlong, hsize,
      Int.tmod_eq_of_lt (by omega) (by omega)]

theorem Intact.spacefree_isSome (h : Intact dev mem) : ∃ space, dev.spacefree = some space := by
  have hzero : dev.buffersize ≠ 0 := by
    intro hz
    have hsize := h.size
    rw [hz, Int32.toInt_zero] at hsize
    have hpos := h.length_pos
    omega
  unfold spacefree
  rw [if_neg hzero]
  split_ifs <;> exact ⟨_, rfl⟩

theorem writeCount_le (dev : ScullPipe) (space : Int) (count : ℕ) :
    dev.writeCount space count ≤ count ∧ dev.writeCount space count ≤ sizeT space := by
  unfold writeCount
  split_ifs <;> omega

theorem Intact.readCount_fits (h : Intact dev mem) (hne : dev.rp ≠ dev.wp) (count : ℕ) :
    if dev.rp < dev.wp then dev.readCount count ≤ dev.wp - dev.rp
    else dev.wp < dev.rp ∧ dev.rp + dev.readCount count ≤ mem.length := by
  have hrp := h.rp_lt
  have hlast := h.last
  unfold readCount
  rcases Nat.lt_or_ge dev.rp dev.wp with hlt | hge
  · have hroom := sizeT_le (dev.wp - dev.rp)
    rw [if_pos hlt, if_pos hlt]
    omega
  · have hroom := sizeT_le (dev.bufferEnd - dev.rp)
    rw [if_neg (Nat.not_lt.mpr hge), if_neg (Nat.not_lt.mpr hge)]
    omega

theorem Intact.writeCount_fits (h : Intact dev mem) {space : Int}
    (hs : dev.spacefree = some space) (count : ℕ) :
    dev.wp + dev.writeCount space count ≤ mem.length ∧
      if dev.rp ≤ dev.wp then dev.rp = 0 → dev.wp + dev.writeCount space count < mem.length
      else dev.wp + dev.writeCount space count < dev.rp := by
  have hrp := h.rp_lt
  have hwp := h.wp_lt
  have hlast := h.last
  obtain ⟨-, hle⟩ := dev.writeCount_le space count
  rcases Nat.lt_or_ge dev.wp dev.rp with hlt | hge
  · have hroom := sizeT_le (dev.rp - dev.wp - 1)
    rw [if_neg (Nat.not_le.mpr hlt), writeCount, if_neg (Nat.not_le.mpr hlt)]
    omega
  · rw [h.spacefree_eq hge, Option.some.injEq] at hs
    have hspace := sizeT_le space
    have hroom := sizeT_le (dev.bufferEnd - dev.wp)
    have hend : dev.writeCount space count ≤ sizeT (dev.bufferEnd - dev.wp) := by
      rw [writeCount, if_pos hge]
      exact Nat.min_le_right _ _
    rw [if_pos hge]
    omega

/-- A read of an intact pipe takes what it returns from the front of the queue. -/
theorem Intact.read (h : Intact dev mem) (count : ℕ) (fault : Option ℕ) :
    ∃ out dev', dev.readSection count fault = some (out, dev') ∧ Intact dev' mem ∧
      dev.queue = out.bytes ++ dev'.queue := by
  rcases eq_or_ne dev.rp dev.wp with he | hne
  · exact ⟨.wait, dev, by rw [readSection, if_pos he], h, rfl⟩
  · have hfits := h.readCount_fits hne count
    have hbound : dev.rp + dev.readCount count ≤ mem.length := by
      have hwp := h.wp_lt
      split_ifs at hfits <;> omega
    rw [readSection, if_neg hne, h.buffer, Option.bind_some, readRange_of_le hbound,
      Option.map_some]
    split_ifs with hok
    · have hdev := h.moveRp (Ring.wrap_lt h.length_pos hbound)
      rw [h.wrapped_eq]
      refine ⟨_, _, rfl, hdev, ?_⟩
      rw [h.queue_eq, hdev.queue_eq]
      exact Ring.content_take h.wp_lt hfits
    · exact ⟨_, _, rfl, h, rfl⟩

theorem Intact.write (h : Intact dev mem) (buf : List Byte) (fault : Option ℕ) :
    ∃ out dev' mem', dev.writeSection buf fault = some (out, dev') ∧ Intact dev' mem' ∧
      mem'.length = mem.length ∧ dev'.queue = dev.queue ++ out.bytes := by
  obtain ⟨space, hs⟩ := h.spacefree_isSome
  rcases eq_or_ne space 0 with rfl | hne
  · refine ⟨.wait, dev, mem, ?_, h, rfl, (List.append_nil _).symm⟩
    rw [writeSection, hs, Option.bind_some, if_pos rfl]
  · obtain ⟨hend, hfree⟩ := h.writeCount_fits hs buf.length
    have hle := (dev.writeCount_le space buf.length).1
    rw [writeSection, hs, Option.bind_some, if_neg hne, h.buffer]
    -- the bytes that reach the buffer, whether or not the copy completes
    obtain ⟨n, hn⟩ : ∃ n, n = dev.writeCount space buf.length := ⟨_, rfl⟩
    obtain ⟨bs, hbs⟩ : ∃ bs, bs = copiedIn (buf.take n) fault := ⟨_, rfl⟩
    have hlen : n = bs.length := by
      rw [hbs, length_copiedIn, List.length_take]
      omega
    rw [← hn] at hend hfree hle ⊢
    rw [Option.bind_some, ← hbs, writeRange_of_le (hlen ▸ hend), Option.map_some]
    have hlen' : (splice mem dev.wp bs).length = mem.length := length_splice (hlen ▸ hend)
    split_ifs with hok
    · have hdev := h.store hlen' (Ring.wrap_lt h.length_pos hend)
      have hcopy : bs = buf.take n := by
        rw [hbs, copiedIn_of_ok]
        rwa [List.length_take, Nat.min_eq_left hle]
      rw [h.wrapped_eq]
      refine ⟨_, _, _, rfl, hdev, hlen', ?_⟩
      rw [h.queue_eq, hdev.queue_eq, ← hcopy]
      subst hlen
      exact Ring.content_fill hend hfree h.rp_lt
    · have hdev := h.store hlen' h.wp_lt
      refine ⟨_, _, _, rfl, hdev, hlen', ?_⟩
      rw [hdev.queue_eq, h.queue_eq]
      subst hlen
      simp only [Transfer.bytes, List.append_nil]
      apply Ring.content_splice hend
      intro hlt
      rwa [if_neg (Nat.not_le.mpr hlt)] at hfree

end ScullPipe
end KernelExperiment.Pipe
