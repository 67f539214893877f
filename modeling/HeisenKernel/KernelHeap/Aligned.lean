import HeisenKernel.KernelHeap.Client

/-!
# Aligned blocks of the kernel heap

`alignedMalloc` keeps how far its pointer is from the block in the two bytes in front of it, so the alignment must be
small enough for the distance to fit.
-/

namespace HeisenKernel

open List KernelHeap Nat

namespace KernelHeap

/-- `KernelHeap::alignedMalloc` (`heap.cpp:162`) without the physical address. The two bytes at an address are a cell
of their own. -/
def alignedMalloc (h : KernelHeap) (size align : Nat) : Exec (Nat × KernelHeap) :=
  if align &&& sub32 align 1 ≠ 0 then .ok (0, h)
  else if align > 0 ∧ size > 0 then do
    let hdrSize := u32 (2 + sub32 align 1)
    let (block, h) ← h.malloc (u32 (size + hdrSize))
    if block ≠ 0 then
      let ptr := alignUp (u32 (block + 2)) align
      .ok (ptr, h.store (sub32 ptr 2) (sub32 ptr block % 2 ^ 16))
    else .ok (0, h)
  else .ok (0, h)

/-- `KernelHeap::allignedFree` (`heap.cpp:185`). -/
def allignedFree (h : KernelHeap) (ptr : Nat) : Exec KernelHeap :=
  if ptr = 0 then .ok h else h.free (sub32 ptr (h.mem (sub32 ptr 2)))

end KernelHeap

variable {start stop : Nat} {c : Client} {l : List Block} {size k ptr : Nat} {h : KernelHeap}

theorem alignUp_two_pow (hn : n + 2 ^ k ≤ 2 ^ 32) (hk : k ≤ 32) :
    alignUp n (2 ^ k) = (n + (2 ^ k - 1)) / 2 ^ k * 2 ^ k := by
  have hpos : 0 < 2 ^ k := Nat.two_pow_pos k
  have hmask : 2 ^ 32 - 1 - (2 ^ k - 1) = (2 ^ (32 - k) - 1) <<< k := by
    rw [Nat.shiftLeft_eq, Nat.sub_mul, ← Nat.pow_add, Nat.sub_add_cancel hk]
    omega
  rw [alignUp, u32_eq (by omega), hmask, ← shiftRight_eq_div_pow, ← shiftLeft_eq]
  refine eq_of_testBit_eq fun i => ?_
  simp only [testBit_and, testBit_shiftLeft, testBit_shiftRight, testBit_two_pow_sub_one]
  by_cases hi : k ≤ i
  · rcases lt_or_ge i 32 with hlt | hge
    · simp [hi, show i - k < 32 - k by omega, Nat.add_sub_cancel' hi]
    · have hfalse : (n + (2 ^ k - 1)).testBit i = false :=
        Nat.testBit_lt_two_pow (lt_of_lt_of_le (by omega) (Nat.pow_le_pow_right (by decide) hge))
      simp [hi, hfalse, Nat.add_sub_cancel' hi]
  · simp [hi]

/-- What is asked of a pointer from `alignedMalloc`: it is aligned, its bytes and the two in front of it lie in a new
block of the heap, no other block in use has any of them, and `allignedFree` takes it away again, and no other. -/
structure AlignedOk (start stop : Nat) (c : Client) (size align ptr : Nat) (h : KernelHeap) : Prop where
  aligned : align ∣ ptr
  block : ∃ b l, ClientInv start stop ⟨h, b.ptr :: c.live⟩ l ∧ b ∈ l ∧ b.ptr + 2 ≤ ptr ∧ ptr + size ≤ b.stop ∧
    (∀ d ∈ l, d ≠ b → d.stop ≤ ptr - 2 ∨ ptr + size ≤ d.addr) ∧
    (∀ h' : KernelHeap, h'.mem (ptr - 2) = h.mem (ptr - 2) → h'.allignedFree ptr = h'.free b.ptr) ∧
    ∃ h' l', h.free b.ptr = .ok h' ∧ ClientInv start stop ⟨h', c.live⟩ l'

theorem alignUp_bounds {n : Nat} (hn : n + 2 ^ k ≤ 2 ^ 32) (hk : k ≤ 32) :
    2 ^ k ∣ alignUp n (2 ^ k) ∧ n ≤ alignUp n (2 ^ k) ∧ alignUp n (2 ^ k) < n + 2 ^ k := by
  have hpos : 0 < 2 ^ k := Nat.two_pow_pos k
  have hdiv := div_add_mod' (n + (2 ^ k - 1)) (2 ^ k)
  rw [alignUp_two_pow hn hk]
  refine ⟨dvd_mul_left .., ?_, ?_⟩ <;> omega

/-- Eight bytes at a multiple of `2 ^ 16`, from a block that is at one already. -/
def farHeap : Exec (Nat × KernelHeap) := do
  let h ← initializeRange (fun _ => 0) 4096 (2 ^ 20)
  let r ← h.malloc 61400
  r.2.alignedMalloc 8 65536

end HeisenKernel
