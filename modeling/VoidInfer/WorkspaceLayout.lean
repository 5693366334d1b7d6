import VoidInfer.Base
import Mathlib.Algebra.Order.Group.Nat

/-
  `core/layout.cpp` and `core/arena.cu`: a workspace is planned by a builder that only counts, and the same scopes and
  allocations then take their memory from an arena.
-/

namespace VoidInfer.Workspace
open List

def isPowerOfTwo (value : Nat) : Bool := value != 0 && value &&& (value - 1) == 0

/-! ## `WorkspaceLayoutBuilder` -/

def checkedAdd (a b : Nat) (label : String) : Except Exn Nat := do
  throwIf (b > sizeMax - a) (.overflowError (label ++ " size overflow"))
  .ok (a + b)

/-- `align_up`. For a power of two, `& ~mask` rounds down to a multiple of `alignment`. -/
def alignUp (value alignment : Nat) (label : String) : Except Exn Nat := do
  throwIf (¬ isPowerOfTwo alignment) (.invalidArgument (label ++ " alignment must be a power of two"))
  let sum ← checkedAdd value (alignment - 1) label
  .ok (sum / alignment * alignment)

structure WorkspaceLayoutBuilder where
  cursor : Nat := 0
  peak : Nat := 0

namespace WorkspaceLayoutBuilder

/-- `alloc`, for a tensor of so many bytes; with the offset at which the planned bytes begin. -/
def alloc (builder : WorkspaceLayoutBuilder) (bytes alignment : Nat) : Except Exn (Nat × WorkspaceLayoutBuilder) := do
  let offset ← alignUp builder.cursor alignment "workspace layout"
  let cursor ← checkedAdd offset bytes "workspace layout"
  .ok (offset, { cursor := cursor, peak := if cursor > builder.peak then cursor else builder.peak })

def allocBytes (builder : WorkspaceLayoutBuilder) (bytes alignment : Nat) :
    Except Exn (Nat × WorkspaceLayoutBuilder) :=
  if bytes = 0 then .ok (builder.cursor, builder) else builder.alloc bytes alignment

def peakBytes (builder : WorkspaceLayoutBuilder) (alignment : Nat) : Except Exn Nat :=
  alignUp builder.peak alignment "workspace layout"

end WorkspaceLayoutBuilder

/-! ## `DeviceArena` -/

def checkedAddUintptr (a b : Nat) : Except Exn Nat := do
  throwIf (b > sizeMax - a) (.overflowError "arena address arithmetic overflow")
  .ok (a + b)

def alignUpAddr (addr align : Nat) : Except Exn Nat := do
  let withMask ← checkedAddUintptr addr (align - 1)
  .ok (withMask / align * align)

/-- An arena over memory: what it may hand out lies in the address space. -/
structure DeviceArena where
  base : Nat
  cap : Nat
  off : Nat := 0
  peak : Nat := 0
  backed : base ≠ 0
  addressed : base + cap ≤ 2 ^ 64

namespace DeviceArena

/-- `alloc_bytes`, with the offset of the span. `alloc` is this, for the bytes of a tensor. -/
def allocBytes (arena : DeviceArena) (bytes align : Nat) : Except Exn (Nat × DeviceArena) := do
  throwIf (arena.base = 0) (.runtimeError "DeviceArena has no backing allocation")
  throwIf (¬ isPowerOfTwo align) (.invalidArgument "arena alignment must be a nonzero power of two")
  throwIf (bytes = 0) (.invalidArgument "arena allocation must be nonzero")
  let currentAddr ← checkedAddUintptr arena.base arena.off
  let alignedAddr ← alignUpAddr currentAddr align
  let alignedOffset := alignedAddr - arena.base
  throwIf (alignedOffset > sizeMax) (.overflowError "arena aligned offset overflows size_t")
  throwIf (bytes > sizeMax - alignedOffset) (.overflowError "arena allocation end offset overflows size_t")
  let finish := alignedOffset + bytes
  throwIf (finish > arena.cap) .badAlloc
  .ok (alignedOffset, { arena with off := finish, peak := if finish > arena.peak then finish else arena.peak })

/-- The destructor of a scope. -/
def leave (arena : DeviceArena) (savedOffset : Nat) : DeviceArena :=
  if savedOffset ≤ arena.off then { arena with off := savedOffset } else arena

end DeviceArena

/-! ## Programs -/

/-- A non-empty allocation, of a tensor or of bytes. -/
structure Request where
  tensor : Bool
  bytes : Nat
  alignment : Nat
  nonempty : 0 < bytes

def WorkspaceLayoutBuilder.serve (builder : WorkspaceLayoutBuilder) (r : Request) :
    Except Exn (Nat × WorkspaceLayoutBuilder) :=
  if r.tensor then builder.alloc r.bytes r.alignment else builder.allocBytes r.bytes r.alignment

/-- What a program does next: scopes are left in the reverse of their order. -/
inductive Op where
  | alloc (request : Request)
  | enter
  | leave

/-- A program on the builder: the cursors its open scopes saved, and the offsets planned so far. -/
structure Planner where
  builder : WorkspaceLayoutBuilder := {}
  scopes : List Nat := []
  offsets : List Nat := []

def Planner.step (p : Planner) : Op → Except Exn Planner
  | .alloc r => do
    let (offset, builder) ← p.builder.serve r
    .ok { p with builder := builder, offsets := p.offsets ++ [offset] }
  | .enter => .ok { p with scopes := p.builder.cursor :: p.scopes }
  | .leave =>
    match p.scopes with
    | [] => .ok p
    | saved :: scopes => .ok { p with builder := { p.builder with cursor := saved }, scopes := scopes }

/-- A program on an arena. `live` holds the offsets and sizes of what was allocated in the scopes
    that are open, latest first. -/
structure Server where
  arena : DeviceArena
  scopes : List (Nat × List (Nat × Nat)) := []
  live : List (Nat × Nat) := []
  offsets : List Nat := []

def Server.step (s : Server) : Op → Except Exn Server
  | .alloc r => do
    let (offset, arena) ← s.arena.allocBytes r.bytes r.alignment
    .ok { s with arena := arena, live := (offset, r.bytes) :: s.live, offsets := s.offsets ++ [offset] }
  | .enter => .ok { s with scopes := (s.arena.off, s.live) :: s.scopes }
  | .leave =>
    match s.scopes with
    | [] => .ok s
    | (saved, live) :: scopes => .ok { s with arena := s.arena.leave saved, scopes := scopes, live := live }

/-! ## The arena follows the plan -/

/-- Extents one above the other, below `top`. -/
def Stacked : Nat → List (Nat × Nat) → Prop
  | _, [] => True
  | top, (offset, bytes) :: rest => offset + bytes ≤ top ∧ Stacked offset rest

/-- What the open scopes saved, from the innermost out. -/
def Saved : Nat → List (Nat × List (Nat × Nat)) → Prop
  | _, [] => True
  | top, (saved, live) :: rest => saved ≤ top ∧ Stacked saved live ∧ Saved saved rest

/-- The arena is where the plan is. -/
structure Follows (p : Planner) (s : Server) : Prop where
  off : s.arena.off = p.builder.cursor
  scopes : s.scopes.map Prod.fst = p.scopes
  offsets : s.offsets = p.offsets
  live : Stacked s.arena.off s.live
  saved : Saved s.arena.off s.scopes
  fits : s.arena.off ≤ s.arena.cap

variable {top top' a b r alignment offset P : Nat}

variable {live : List (Nat × Nat)}

theorem Stacked.mono (h : Stacked top live) (hle : top ≤ top') : Stacked top' live := by
  cases live with
  | nil => trivial
  | cons extent rest => exact ⟨h.1.trans hle, h.2⟩

theorem Saved.mono {scopes : List (Nat × List (Nat × Nat))} (h : Saved top scopes)
    (hle : top ≤ top') : Saved top' scopes := by
  cases scopes with
  | nil => trivial
  | cons scope rest => exact ⟨h.1.trans hle, h.2⟩

theorem Stacked.below (h : Stacked top live) : ∀ e ∈ live, e.1 + e.2 ≤ top := by
  induction live generalizing top with
  | nil => nofun
  | cons extent rest ih =>
    intro e he
    rcases mem_cons.mp he with rfl | he
    · exact h.1
    · exact (ih h.2 e he).trans ((Nat.le_add_right _ _).trans h.1)

theorem Stacked.disjoint (h : Stacked top live) : live.Pairwise fun a b => b.1 + b.2 ≤ a.1 := by
  induction live generalizing top with
  | nil => exact .nil
  | cons extent rest ih => exact .cons (fun e he => h.2.below e he) (ih h.2)

theorem checkedAdd_ok {label : String} (h : checkedAdd a b label = .ok r) :
    r = a + b ∧ (a ≤ sizeMax → r ≤ sizeMax) := by
  obtain ⟨hfits, h⟩ := check_ok h
  cases h
  omega

theorem checkedAddUintptr_eq (h : a + b ≤ sizeMax) : checkedAddUintptr a b = .ok (a + b) := by
  rw [checkedAddUintptr, throwIf, if_neg (by omega)]
  rfl

theorem alignUp_ok {value alignment r : Nat} {label : String} (h : alignUp value alignment label = .ok r) :
    isPowerOfTwo alignment = true ∧ r = (value + (alignment - 1)) / alignment * alignment := by
  obtain ⟨hpower, h⟩ := check_ok h
  obtain ⟨sum, hsum, h⟩ := bind_ok h
  cases h
  rw [(checkedAdd_ok hsum).1]
  exact ⟨by simpa using hpower, rfl⟩

theorem power_dvd (hpower : isPowerOfTwo alignment = true) (h : alignment < 2 ^ 64) :
    0 < alignment ∧ alignment ∣ 2 ^ 64 := by
  simp only [isPowerOfTwo, Bool.and_eq_true, bne_iff_ne, beq_iff_eq] at hpower
  obtain ⟨k, rfl⟩ := (Nat.and_sub_one_eq_zero_iff_isPowerOfTwo hpower.1).mp hpower.2
  exact ⟨Nat.two_pow_pos k, Nat.pow_dvd_pow 2 (Nat.le_of_lt ((Nat.pow_lt_pow_iff_right Nat.one_lt_two).mp h))⟩

theorem alignUpAddr_eq {base off align offset : Nat} (hpower : isPowerOfTwo align = true) (hbase : base ≠ 0)
    (hdvd : align ∣ base) (hoffset : offset = (off + (align - 1)) / align * align) (hfits : base + offset < 2 ^ 64) :
    alignUpAddr (base + off) align = .ok (base + offset) ∧ off ≤ offset := by
  have hsmall : align < 2 ^ 64 := (Nat.le_of_dvd (Nat.pos_of_ne_zero hbase) hdvd).trans_lt (by omega)
  obtain ⟨hpos, hspace⟩ := power_dvd hpower hsmall
  have hround : off + (align - 1) < offset + align := hoffset ▸ Nat.lt_div_mul_add hpos
  -- an aligned address below the end of the address space has a whole unit before the end
  have hunit : base + offset + align ≤ 2 ^ 64 := by
    have hdvd' : align ∣ 2 ^ 64 - (base + offset) :=
      Nat.dvd_sub hspace (Nat.dvd_add hdvd (hoffset ▸ Nat.dvd_mul_left _ _))
    have := Nat.le_of_dvd (by omega) hdvd'
    omega
  obtain ⟨q, rfl⟩ := hdvd
  have hsum : align * q + off + (align - 1) ≤ sizeMax := by
    simp only [sizeMax]
    omega
  refine ⟨?_, by omega⟩
  rw [alignUpAddr, checkedAddUintptr_eq hsum]
  change Except.ok _ = _
  rw [Nat.add_assoc, Nat.mul_add_div hpos, Nat.add_mul, Nat.mul_comm q, ← hoffset]

theorem alloc_ok {b b' : WorkspaceLayoutBuilder} {bytes alignment offset : Nat}
    (h : b.alloc bytes alignment = .ok (offset, b')) : isPowerOfTwo alignment = true ∧
      offset = (b.cursor + (alignment - 1)) / alignment * alignment ∧ b'.cursor = offset + bytes ∧
      b.peak ≤ b'.peak ∧ b'.cursor ≤ b'.peak := by
  obtain ⟨o, halign, h⟩ := bind_ok h
  obtain ⟨cursor, hadd, h⟩ := bind_ok h
  cases h
  obtain ⟨hpower, hoffset⟩ := alignUp_ok halign
  exact ⟨hpower, hoffset, (checkedAdd_ok hadd).1, by dsimp only; split <;> omega, by dsimp only; split <;> omega⟩

theorem serve_eq (b : WorkspaceLayoutBuilder) (r : Request) : b.serve r = b.alloc r.bytes r.alignment := by
  rw [WorkspaceLayoutBuilder.serve, WorkspaceLayoutBuilder.allocBytes, if_neg r.nonempty.ne', ite_self]

theorem allocBytes_follows {b b' : WorkspaceLayoutBuilder} {arena : DeviceArena} {r : Request}
    (hplan : b.alloc r.bytes r.alignment = .ok (offset, b')) (hoff : arena.off = b.cursor)
    (hpeak : b'.peak ≤ arena.cap) (hdvd : r.alignment ∣ arena.base) :
    arena.off ≤ offset ∧ b'.cursor = offset + r.bytes ∧ offset + r.bytes ≤ arena.cap ∧
    ∃ arena', arena'.base = arena.base ∧ arena'.cap = arena.cap ∧ arena'.off = offset + r.bytes ∧
      arena.allocBytes r.bytes r.alignment = .ok (offset, arena') := by
  obtain ⟨hpower, hoffset, hcursor, -, hle⟩ := alloc_ok hplan
  have hbytes := r.nonempty
  have haddressed := arena.addressed
  have hbacked := arena.backed
  rw [← hoff] at hoffset
  obtain ⟨halign, hlow⟩ := alignUpAddr_eq hpower arena.backed hdvd hoffset (by omega)
  have hcurrent : checkedAddUintptr arena.base arena.off = .ok (arena.base + arena.off) :=
    checkedAddUintptr_eq (by simp only [sizeMax]; omega)
  refine ⟨hlow, hcursor, by omega, { arena with
    off := offset + r.bytes
    peak := if offset + r.bytes > arena.peak then offset + r.bytes else arena.peak }, rfl, rfl, rfl, ?_⟩
  simp only [DeviceArena.allocBytes, throwIf, hpower, hcurrent, halign, bind, Except.bind, not_true_eq_false,
    if_false, if_neg arena.backed, if_neg hbytes.ne', Nat.add_sub_cancel_left]
  rw [if_neg (by simp only [sizeMax]; omega), if_neg (by simp only [sizeMax]; omega), if_neg (by omega)]

theorem Planner.step_peak {p p' : Planner} {op : Op} (h : p.step op = .ok p') : p.builder.peak ≤ p'.builder.peak := by
  cases op with
  | alloc r =>
    rw [Planner.step, serve_eq] at h
    obtain ⟨⟨offset, b⟩, halloc, h⟩ := bind_ok h
    cases h
    exact (alloc_ok halloc).2.2.2.1
  | enter =>
    cases h
    exact le_rfl
  | leave =>
    unfold Planner.step at h
    dsimp only at h
    split at h
    · cases h
      exact le_rfl
    · cases h
      exact le_rfl

theorem Planner.run_peak {ops : List Op} {p p' : Planner} (h : ops.foldlM Planner.step p = .ok p') :
    p.builder.peak ≤ p'.builder.peak := by
  induction ops generalizing p with
  | nil =>
    cases h
    exact le_rfl
  | cons op ops ih =>
    obtain ⟨next, hstep, h⟩ := bind_ok h
    exact (Planner.step_peak hstep).trans (ih h)

/-- The alignments a program uses. -/
def aligned (ops : List Op) (base : Nat) : Prop := ∀ r, .alloc r ∈ ops → r.alignment ∣ base

theorem Follows.step {p p' : Planner} {s : Server} {op : Op} (h : Follows p s) (hplan : p.step op = .ok p')
    (hpeak : p'.builder.peak ≤ s.arena.cap) (hdvd : ∀ r, op = .alloc r → r.alignment ∣ s.arena.base) :
    ∃ s', s.step op = .ok s' ∧ Follows p' s' ∧ s'.arena.base = s.arena.base ∧ s'.arena.cap = s.arena.cap := by
  cases op with
  | alloc r =>
    rw [Planner.step, serve_eq] at hplan
    obtain ⟨⟨offset, b⟩, halloc, hplan⟩ := bind_ok hplan
    cases hplan
    obtain ⟨hlow, hcursor, hend, arena', hbase, hcap, hoff, hserve⟩ :=
      allocBytes_follows halloc h.off hpeak (hdvd r rfl)
    have hstep : s.step (.alloc r) = .ok { s with
        arena := arena', live := (offset, r.bytes) :: s.live, offsets := s.offsets ++ [offset] } := by
      rw [Server.step, hserve]
      rfl
    refine ⟨_, hstep, ⟨hoff.trans hcursor.symm, h.scopes, ?_, ?_, ?_, ?_⟩, hbase, hcap⟩
    · rw [h.offsets]
    · exact ⟨hoff.ge, h.live.mono hlow⟩
    · exact h.saved.mono (hlow.trans (hoff ▸ Nat.le_add_right _ _))
    · exact hoff.le.trans (hcap ▸ hend)
  | enter =>
    cases hplan
    exact ⟨_, rfl, ⟨h.off, by simp [h.scopes, h.off], h.offsets, h.live, ⟨le_rfl, h.live, h.saved⟩, h.fits⟩, rfl, rfl⟩
  | leave =>
    obtain ⟨hoff, hscopes, hoffsets, hlive, hsaved, hfits⟩ := h
    unfold Planner.step at hplan
    unfold Server.step
    cases hs : s.scopes with
    | nil =>
      rw [hs] at hscopes
      simp only [← hscopes, map_nil] at hplan
      cases hplan
      exact ⟨s, rfl, ⟨hoff, by rw [hs, ← hscopes], hoffsets, hlive, hs ▸ hsaved, hfits⟩, rfl, rfl⟩
    | cons scope rest =>
      obtain ⟨saved, live⟩ := scope
      rw [hs] at hscopes hsaved
      simp only [← hscopes, map_cons] at hplan
      cases hplan
      obtain ⟨hle, hstacked, hrest⟩ := hsaved
      have harena : s.arena.leave saved = { s.arena with off := saved } := if_pos hle
      refine ⟨_, rfl, ?_, ?_, ?_⟩
      · rw [harena]
        exact ⟨rfl, rfl, hoffsets, hstacked, hrest, hle.trans hfits⟩
      · rw [harena]
      · rw [harena]

theorem Follows.run {ops : List Op} : ∀ {p p' : Planner} {s : Server}, Follows p s →
    ops.foldlM Planner.step p = .ok p' → p'.builder.peak ≤ s.arena.cap → aligned ops s.arena.base →
    ∃ s', ops.foldlM Server.step s = .ok s' ∧ Follows p' s' ∧ s'.arena.cap = s.arena.cap := by
  induction ops with
  | nil =>
    intro p p' s h hplan _ _
    cases hplan
    exact ⟨s, rfl, h, rfl⟩
  | cons op ops ih =>
    intro p p' s h hplan hpeak hdvd
    obtain ⟨next, hstep, hplan⟩ := bind_ok hplan
    obtain ⟨s₁, hserve, hfollows, hbase, hcap⟩ := h.step hstep ((Planner.run_peak hplan).trans hpeak)
      fun r hr => hdvd r (hr ▸ mem_cons_self)
    obtain ⟨s', hrun, hend, hcap'⟩ := ih hfollows hplan (hcap ▸ hpeak) fun r hr => hbase ▸ hdvd r (mem_cons_of_mem _ hr)
    exact ⟨s', by rw [foldlM_cons, hserve]; exact hrun, hend, hcap'.trans hcap⟩

theorem peakBytes_ge {b : WorkspaceLayoutBuilder} (h : b.peakBytes alignment = .ok P) : b.peak ≤ P := by
  obtain ⟨hpower, rfl⟩ := alignUp_ok h
  have hpos : 0 < alignment := Nat.pos_of_ne_zero (by rintro rfl; cases hpower)
  have : b.peak + (alignment - 1) < (b.peak + (alignment - 1)) / alignment * alignment + alignment :=
    Nat.lt_div_mul_add hpos
  omega

/-- A program that was planned runs on an arena of the planned size with an aligned base: at every
    moment it has been given the planned offsets, and what is live is disjoint and in the arena. -/
theorem planned_workspace_fits {ops : List Op} {planned : Planner} {alignment P : Nat} {arena : DeviceArena}
    (hplan : ops.foldlM Planner.step {} = .ok planned) (hpeak : planned.builder.peakBytes alignment = .ok P)
    (hcap : arena.cap = P) (hfresh : arena.off = 0) (hbase : aligned ops arena.base) :
    ∀ before after, ops = before ++ after → ∃ p s, before.foldlM Planner.step {} = .ok p ∧
      before.foldlM Server.step { arena := arena } = .ok s ∧ s.offsets = p.offsets ∧
      s.live.Pairwise (fun a b => b.1 + b.2 ≤ a.1) ∧ ∀ e ∈ s.live, e.1 + e.2 ≤ P := by
  rintro before after rfl
  rw [foldlM_append] at hplan
  obtain ⟨p, hbefore, hafter⟩ := bind_ok hplan
  have hle : p.builder.peak ≤ arena.cap := (Planner.run_peak hafter).trans (hcap ▸ peakBytes_ge hpeak)
  have hstart : Follows {} { arena := arena } := ⟨hfresh, rfl, rfl, trivial, trivial, hfresh ▸ Nat.zero_le _⟩
  obtain ⟨s, hserve, hfollows, hscap⟩ := hstart.run hbefore hle fun r hr => hbase r (mem_append_left _ hr)
  refine ⟨p, s, hbefore, hserve, hfollows.offsets, hfollows.live.disjoint, fun e he => ?_⟩
  exact (hfollows.live.below e he).trans (hfollows.fits.trans (hscap.trans hcap).le)

/-- A scope left again, and an allocation after it. -/
def sampleOps : List Op :=
  [.enter, .alloc ⟨false, 300, 256, by decide⟩, .leave, .alloc ⟨true, 40, 64, by decide⟩]

theorem planned_workspace_fits_sample : ∃ s, sampleOps.foldlM Server.step
    { arena := { base := 4096, cap := 512, backed := by decide, addressed := by decide } } = .ok s ∧
    ∀ e ∈ s.live, e.1 + e.2 ≤ 512 := by
  obtain ⟨planned, hplan, hpeak⟩ : ∃ planned, sampleOps.foldlM Planner.step {} = .ok planned ∧
      planned.builder.peakBytes 256 = .ok 512 := ⟨_, rfl, rfl⟩
  have hbase : aligned sampleOps 4096 := by
    intro r hr
    simp only [sampleOps, mem_cons, reduceCtorEq, Op.alloc.injEq, not_mem_nil, false_or, or_false] at hr
    rcases hr with rfl | rfl <;> decide
  have hcap : DeviceArena.cap { base := 4096, cap := 512, backed := by decide, addressed := by decide } = 512 := rfl
  obtain ⟨-, s, -, hserve, -, -, hlive⟩ := planned_workspace_fits hplan hpeak hcap rfl hbase sampleOps [] rfl
  exact ⟨s, hserve, hlive⟩

end VoidInfer.Workspace
