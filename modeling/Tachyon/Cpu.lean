import Tachyon.Heap.KernelRuns

/-!
# The locals of the CPUs

`cpu_init` resizes the array `_cpulcl` to the greatest id so far, which leaves no place for the
entry of that id.

* `localsFit_iff`: already the first call writes behind the block.
-/

namespace Tachyon.Cpu

open Heap Prog

structure Cpus where
  cpumaxid : ℕ
  cpulcl : ℕ
  deriving DecidableEq

variable {σ : Type} {P : Pages σ}

def sizeofCpuLocals : ℕ := 8

/-- `&_cpulcl[id]`. -/
def Cpus.locals (cpus : Cpus) (id : ℕ) : ℕ := add64 cpus.cpulcl (sizeofCpuLocals * id)

/-- `cpu_init` on the CPU `id`, as far as the locals go; `ctx` is `&_dummy_context`. -/
def cpuInit (P : Pages σ) (fuel ctx id : ℕ) (cpus : Cpus) : Prog (Sys σ) Cpus := do
  let cpumaxid := max cpus.cpumaxid id
  let cpulcl ← heapRealloc P fuel cpus.cpulcl (sizeofCpuLocals * cpumaxid)
  let cpus' := ⟨cpumaxid, cpulcl⟩
  Heap.store (cpus'.locals id) fun m => memset m (cpus'.locals id) 0 sizeofCpuLocals
  Heap.store (cpus'.locals id) fun m => write64 m (cpus'.locals id) ctx
  pure cpus'

/-- A sequence of calls in which `kheap_realloc` has room and succeeds, with the states after each
of them. -/
inductive Inits (P : Pages σ) (ctx : ℕ) : Cpus → Sys σ → List (ℕ × Cpus × Sys σ) → Prop
  | nil {cpus : Cpus} {s : Sys σ} : Inits P ctx cpus s []
  | cons {cpus cpus' : Cpus} {s s' : Sys σ} {log : List (ℕ × Cpus × Sys σ)} {fuel id : ℕ}
      (lt : id < 2 ^ 32) (room : HasRoom s (sizeofCpuLocals * max cpus.cpumaxid id))
      (call : cpuInit P fuel ctx id cpus s = .ok (cpus', s')) (succeeds : cpus'.cpulcl ≠ 0)
      (rest : Inits P ctx cpus' s' log) : Inits P ctx cpus s ((id, cpus', s') :: log)

/-- After each call the block has an entry for every CPU so far, the entry that was written is
inside, and those of the CPUs `seen` before hold what they held. -/
def LocalsFit : Cpus → Sys σ → List ℕ → List (ℕ × Cpus × Sys σ) → Prop
  | _, _, _, [] => True
  | cpus, s, seen, (id, cpus', s') :: log =>
    (∀ i ∈ id :: seen, sizeofCpuLocals * (i + 1) ≤ capacity s' cpus'.cpulcl) ∧
    (cpus'.cpulcl ≤ cpus'.locals id ∧
      cpus'.locals id + sizeofCpuLocals ≤ cpus'.cpulcl + capacity s' cpus'.cpulcl) ∧
    (∀ i ∈ seen, read64 s'.mem (cpus'.locals i) = read64 s.mem (cpus.locals i)) ∧
    LocalsFit cpus' s' (id :: seen) log

variable {cpus : Cpus} {s s' : Sys σ} {c : KernelClient σ} {fuel ctx id e : ℕ}

theorem run_store {a : ℕ} {f : Mem → Mem} (h : Heap.store a f s = .ok ((), s')) :
    s' = { s with mem := f s.mem } := by
  unfold Heap.store at h
  split_ifs at h <;> cases h
  rfl

/-- The first call takes a block of `id` entries; the write of the next one spares its header. -/
theorem cpuInit_capacity {bs : List Blk} {l : List (ℕ × ℕ)} {lost : List ℕ}
    (h : KernelInv P e c bs l lost) (hid : id < 2 ^ 32)
    (hroom : HasRoom c.sys (sizeofCpuLocals * max 0 id))
    (hcall : cpuInit P fuel ctx id ⟨0, 0⟩ c.sys = .ok (cpus, s')) (hne : cpus.cpulcl ≠ 0) :
    capacity s' cpus.cpulcl = sizeofCpuLocals * id := by
  obtain ⟨p, s1, halloc, hrest⟩ := bind_eq_ok.1 hcall
  obtain ⟨_, s2, hset, hrest⟩ := bind_eq_ok.1 hrest
  obtain ⟨_, s3, hwrite, hrest⟩ := bind_eq_ok.1 hrest
  cases hrest
  simp only [sizeofCpuLocals, Cpus.locals, Nat.zero_max] at *
  rw [heapRealloc, if_pos rfl] at halloc
  have hb : NoWrap (8 * id) := (noWrap_of_le (by rw [pageSize4K]; omega)).1
  obtain ⟨bs', new, hgrew, hlive, -⟩ := heapAlloc_kernel_block h.reg h.global h.below hb
    (hroom bs h.reg.owns.wf.tiles) _ _ halloc
  have ht := hgrew.reg.owns.wf.tiled
  have hbounds := live_bounds (hlive hne)
  have hround := hb.alignUp
  have hmark := ht.mark_eq
  have hle := ht.mark_le
  have hend := ht.end_lt
  rw [add64_of_lt (by omega)] at hset hwrite
  rw [run_store hwrite, run_store hset]
  refine Eq.trans ?_ ((ht.capacity_untouched (Untouched.refl _ _) (hlive hne)).trans (by omega))
  rw [capacity, capacity, blM2H, blockT, sub64_of_le (by omega) (by omega)]
  rw [read64_congr fun a h1 h2 => ?_]
  exact (write64_of_not_mem (by omega)).trans (memset_of_not_mem (by omega))

/-- **The locals of the CPUs** do not fit their array after any call of `cpu_init`. -/
theorem localsFit_iff {s₀ s₁ : Sys σ} {fuel₀ : ℕ} {log : List (ℕ × Cpus × Sys σ)}
    (hglob : s₀.globMap = 0) (hP : P.Below (2 ^ 64 - 1))
    (hinit : kheapInit P fuel₀ s₀ = .ok ((), s₁))
    (hrun : Relation.ReflTransGen (KernelStep P) ⟨s₁, [], 0⟩ c)
    (hlog : Inits P ctx ⟨0, 0⟩ c.sys log) : LocalsFit ⟨0, 0⟩ c.sys [] log ↔ log = [] := by
  obtain ⟨bs, l, lost, h⟩ := KernelInv.run hglob hP hinit hrun
  refine ⟨fun hfit => ?_, fun hnil => hnil ▸ trivial⟩
  cases hlog with
  | nil => rfl
  | cons lt room call succeeds rest =>
    have hfirst := hfit.1 _ List.mem_cons_self
    rw [cpuInit_capacity h lt room call succeeds, sizeofCpuLocals] at hfirst
    omega

theorem inits_kernelReady : ∃ s, Inits kernelPages 0x200000 ⟨0, 0⟩ kernelReady
    [(0, ⟨0, kheapStart + 120⟩, s)] := by
  obtain ⟨-, bs, a, h⟩ := KernelInv.init rfl kernelPages_below (by decide) kheapInit_kernelBoot
  have hcall := eq_ok_of_value (p := cpuInit kernelPages 16 0x200000 0 ⟨0, 0⟩) (s := kernelReady)
    (a := ⟨0, kheapStart + 120⟩) (by decide +kernel)
  exact ⟨_, .cons (by decide) (h.hasRoom (by decide)) hcall (by decide) .nil⟩

theorem localsFit_iff_boot : ∃ log, Inits kernelPages 0x200000 ⟨0, 0⟩ kernelReady log ∧
    log ≠ [] ∧ (LocalsFit ⟨0, 0⟩ kernelReady [] log ↔ log = []) := by
  obtain ⟨s, h⟩ := inits_kernelReady
  exact ⟨_, h, List.cons_ne_nil _ _,
    localsFit_iff rfl kernelPages_below kheapInit_kernelBoot .refl h⟩

/-- The boot processor has the id 0: its block is empty. -/
theorem locals_behind_block : ∃ cpus s, Inits kernelPages 0x200000 ⟨0, 0⟩ kernelReady
    [(0, cpus, s)] ∧ ¬ LocalsFit ⟨0, 0⟩ kernelReady [] [(0, cpus, s)] := by
  obtain ⟨-, bs, a, h⟩ := KernelInv.init rfl kernelPages_below (by decide) kheapInit_kernelBoot
  obtain ⟨s, hinits⟩ := inits_kernelReady
  refine ⟨_, s, hinits, fun hfit => ?_⟩
  cases hinits with
  | cons lt room call succeeds _ =>
    have hfirst := hfit.1 0 List.mem_cons_self
    rw [cpuInit_capacity h lt room call succeeds] at hfirst
    exact absurd hfirst (by decide)

end Tachyon.Cpu
