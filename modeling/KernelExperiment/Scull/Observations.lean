import KernelExperiment.Scull.Reading

/-! What reads can tell about a device. Two devices give the same results to all reads below
`2 ^ 31` exactly when they show the same at every position below their size. -/

namespace KernelExperiment.Scull
open Kernel Region Blocks

variable {β : Type*} {q n p : ℕ} {d d' : Driver β} {κ : Kmalloc β}

/-- The arguments of one `scull_read`, with the point where the user memory faults. -/
structure Request where
  pos : ℕ
  count : ℕ
  fault : Option ℕ

/-- The byte at an offset of the quantum at an entry. -/
def peekIn (arr : Option (PtrArray β)) (j o : ℕ) : Option (Option β) :=
  (slotAt arr j).map fun slot => slot.bind fun qm => qm.bytes[o]?

namespace Driver

/-- The results of reads that are made one after another. -/
def reads (κ : Kmalloc β) : Driver β → List Request → Option (List (Except Errno (List β)))
  | _, [] => some []
  | d, r :: rs =>
    (d.scullRead κ d.dev.quantum d.dev.qset r.pos r.count r.fault).bind fun (result, d) =>
      (reads κ d rs).map (result :: ·)

def peek (d : Driver β) (q n x : ℕ) : Option (Option β) :=
  peekIn (arrayAt d.dev.data (x / q / n)) (x / q % n) (x % q)

end Driver

namespace Laid
open Driver

theorem reads_cons (h : Laid q n d) (κ : Kmalloc β) {r : Request} (hr : r.pos < 2147483648)
    (rs : List Request) :
    d.reads κ (r :: rs) = (d.result q n r.pos r.count r.fault).bind fun result =>
      (d.reads κ rs).map (result :: ·) := by
  rw [reads, h.read_eq κ hr, Option.bind_map]
  rfl

theorem reads_iff_result (h : Laid q n d) (h' : Laid q n d') (κ : Kmalloc β) :
    (∀ rs : List Request, (∀ r ∈ rs, r.pos < 2147483648) → d'.reads κ rs = d.reads κ rs) ↔
      ∀ p < 2147483648, ∀ count fault,
        d'.result q n p count fault = d.result q n p count fault := by
  constructor
  · intro hreads p hp count fault
    have hone := hreads [⟨p, count, fault⟩] (by simpa using hp)
    rw [h.reads_cons κ hp, h'.reads_cons κ hp] at hone
    have hback : ∀ result : Option (Except Errno (List β)),
        (result.bind fun r => (some []).map (r :: ·)).bind List.head? = result := by
      intro result
      cases result <;> rfl
    rw [← hback (d'.result q n p count fault), ← hback (d.result q n p count fault)]
    exact congrArg (Option.bind · List.head?) hone
  · intro hresult rs
    induction rs with
    | nil => exact fun _ => rfl
    | cons r rs ih =>
      intro hrs
      have hr := hrs r (List.mem_cons_self ..)
      rw [h.reads_cons κ hr, h'.reads_cons κ hr, hresult r.pos hr,
        ih fun r' hr' => hrs r' (List.mem_cons_of_mem _ hr')]

theorem peek_add (d : Driver β) {i : ℕ} (hi : p % q + i < q) :
    d.peek q n (p + i) =
      peekIn (arrayAt d.dev.data (p / q / n)) (p / q % n) (p % q + i) := by
  rw [peek, div_add_of_lt hi, mod_add_of_lt hi]

/-- A read of a quantum from its start tells all of its bytes below the size. -/
theorem peek_of_result (h : Laid q n d) (hsize : d'.dev.size = d.dev.size)
    (hresult : ∀ p < 2147483648, ∀ count fault,
      d'.result q n p count fault = d.result q n p count fault) {x : ℕ} (hx : x < d.dev.size) :
    d'.peek q n x = d.peek q n x := by
  have hq := h.geom.quantum_pos
  have hdiv := Nat.div_add_mod' x q
  have hmod := Nat.mod_lt x hq
  have hread := hresult (x / q * q) (h.near x hx) q none
  have hlt : x / q * q < d.dev.size := by omega
  unfold Driver.result at hread
  rw [hsize, if_pos hlt, if_pos hlt, Nat.mul_div_cancel _ hq, Nat.mul_mod_left] at hread
  obtain ⟨m, hm⟩ : ∃ m, m = min (min q (d.dev.size - x / q * q)) (q - 0) := ⟨_, rfl⟩
  have hcount : x % q < m := by omega
  have hbyte : ∀ slot : Option (Quantum β),
      ((copyFrom slot 0 m none).toOption.bind fun bs => bs[x % q]?) =
        slot.bind fun qm => qm.bytes[x % q]? := by
    intro slot
    cases slot with
    | none => rfl
    | some qm =>
      rw [copyFrom, if_pos (copyOk_none m)]
      exact List.getElem?_take_of_lt hcount
  have hpeek : ∀ d : Driver β, d.peek q n x =
      ((slotAt (arrayAt d.dev.data (x / q / n)) (x / q % n)).map fun slot =>
        copyFrom slot 0 m none).map fun r => r.toOption.bind fun bs => bs[x % q]? := by
    intro d
    rw [Option.map_map, peek, peekIn]
    congr 1
    funext slot
    exact (hbyte slot).symm
  rw [← hm] at hread
  rw [hpeek d', hpeek d, hread]

theorem result_of_peek (h : Laid q n d) (h' : Laid q n d') (hsize : d'.dev.size = d.dev.size)
    (hpeek : ∀ x < d.dev.size, d'.peek q n x = d.peek q n x) (p count : ℕ) (fault : Option ℕ) :
    d'.result q n p count fault = d.result q n p count fault := by
  have hq := h.geom.quantum_pos
  have hmod := Nat.mod_lt p hq
  unfold Driver.result
  rw [hsize]
  split_ifs with hlt
  · have hat : ∀ i, p + i < d.dev.size → p % q + i < q →
        peekIn (arrayAt d'.dev.data (p / q / n)) (p / q % n) (p % q + i) =
          peekIn (arrayAt d.dev.data (p / q / n)) (p / q % n) (p % q + i) := by
      intro i hi hin
      rw [← peek_add d' hin, ← peek_add d hin]
      exact hpeek (p + i) hi
    have hfirst := hat 0 hlt hmod
    unfold peekIn at hat hfirst
    cases hslot : slotAt (arrayAt d.dev.data (p / q / n)) (p / q % n) with
    | none =>
      rw [hslot, Option.map_none, Option.map_eq_none_iff] at hfirst
      rw [hfirst]
    | some slot =>
      rw [hslot, Option.map_some] at hfirst
      obtain ⟨slot', hslot', -⟩ := Option.map_eq_some_iff.mp hfirst
      rw [hslot', Option.map_some, Option.map_some]
      simp only [hslot, hslot', Option.map_some, Option.some.injEq] at hat hfirst
      congr 1
      cases slot with
      | none =>
        cases slot' with
        | none => rfl
        | some qm' =>
          have hlen' := h'.length_of_slot hslot'
          have hnone := List.getElem?_eq_none_iff.mp hfirst
          omega
      | some qm =>
        have hlen := h.length_of_slot hslot
        cases slot' with
        | none =>
          have hnone := List.getElem?_eq_none_iff.mp hfirst.symm
          omega
        | some qm' =>
          have hbytes : (qm'.bytes.drop (p % q)).take
              (min (min count (d.dev.size - p)) (q - p % q)) =
              (qm.bytes.drop (p % q)).take (min (min count (d.dev.size - p)) (q - p % q)) := by
            refine List.ext_getElem? fun i => ?_
            rw [List.getElem?_take, List.getElem?_take]
            split_ifs with hi
            · rw [List.getElem?_drop, List.getElem?_drop]
              exact hat i (by omega) (by omega)
            · rfl
          rw [copyFrom, copyFrom, hbytes]
  · rfl

theorem reads_iff_peek (h : Laid q n d) (h' : Laid q n d') (hsize : d'.dev.size = d.dev.size)
    (κ : Kmalloc β) :
    (∀ rs : List Request, (∀ r ∈ rs, r.pos < 2147483648) → d'.reads κ rs = d.reads κ rs) ↔
      ∀ x < d.dev.size, d'.peek q n x = d.peek q n x := by
  rw [h.reads_iff_result h' κ]
  constructor
  · exact fun hresult x hx => h.peek_of_result hsize hresult hx
  · exact fun hpeek p _ => h.result_of_peek h' hsize hpeek p

end Laid
end KernelExperiment.Scull
