import ScalesOS.WindowSearch

/-! Device registers in the window area, `kernel/src/mem/mmio.c`. The number of the register's
page is passed to `k_map` and compared with translations, where both expect an address. -/
namespace ScalesOS

/-- `mappings` is the list of the source, which the first call creates. -/
structure Mmio where
  vm : Vm
  mappings : Option (List ℕ)

namespace Mmio

open Vm Entry Pmm GapSearch

def kMemMmioGetMapping (vm : Vm) (mappings : List ℕ) (frame : ℕ) : ℕ :=
  (mappings.find? fun map => vm.kMemPagingVirt2phys map == frame).getD 0

/-- `if(!mappings) mappings = list_create()`. -/
def createList (s : Mmio) (create : ℕ) : Result (List ℕ × Vm) :=
  match s.mappings with
  | some mappings => pure (mappings,s.vm)
  | none => do
    let vm ← s.vm.growHeap create
    pure ([],vm)

/-- `create` and `push` are the pages by which the kernel heap has to grow for the list. -/
def kMemMmioMapRegister (s : Mmio) (address create push : ℕ) : Result (ℕ × Mmio) := do
  let (mappings,vm) ← s.createList create
  let page := address/0x1000
  let map := kMemMmioGetMapping vm mappings page
  if map = 0 then do
    let (map,vm) ← vm.kMap page 1 (PAGE_PRESENT ||| PAGE_WRITABLE)
    let vm ← vm.growHeap push
    pure ((map+address%0x1000)%W32,⟨vm,some (mappings++[map])⟩)
  else pure ((map+address%0x1000)%W32,⟨vm,some mappings⟩)

def WindowPage (map : ℕ) : Prop := map%0x1000 = 0 ∧ LOWMEM_START ≤ map ∧ map+0x1000 ≤ LOWMEM_END

/-- The page behind the window area is not mapped, and the heap begins behind it. -/
structure VmOk (vm : Vm) : Prop where
  windowsOk : vm.WindowsOk
  aligned : vm.firstFreeAddress%0x1000 = 0
  guard : vm.lookup vm.directory WINDOW_END = none
  heap : HEAP_START ≤ vm.heapEnd

structure Ok (s : Mmio) : Prop where
  vmOk : VmOk s.vm
  pages : ∀ mappings, s.mappings = some mappings → ∀ map ∈ mappings, WindowPage map

/-- A call for a register outside page 0 that returns. The heap stays in its area. -/
def Call (s s' : Mmio) : Prop :=
  ∃ address create push r, 0x1000 ≤ address ∧ address < W32 ∧
    s.vm.heapEnd+(create+push)*0x1000 ≤ HEAP_END ∧
    s.kMemMmioMapRegister address create push = .ok (r,s')

variable {vm vm' : Vm}

theorem mapScattered_rewrites {flags : ℕ} (n : ℕ) : ∀ {i v : ℕ} {vm : Vm}, vm.WindowsOk →
    LOWMEM_START ≤ v → v+n*0x1000 ≤ USABLE_MEMORY_END → mapScattered 0 flags n i v vm = .ok vm' →
    vm.Rewrites vm' fun m => v/0x1000 ≤ m := by
  induction n with
  | zero =>
    intro i v vm _ _ _ h
    obtain rfl := Except.ok.inj h
    exact .refl _ _
  | succ n ih =>
    intro i v vm hs h1 h2 h
    have hmax : USABLE_MEMORY_END < W32 := by decide
    rw [mapScattered,if_pos rfl] at h
    obtain ⟨⟨b,p⟩,halloc,h⟩ := Result.bind_eq_ok.mp h
    obtain ⟨vm₁,hmap,h⟩ := Result.bind_eq_ok.mp h
    have hclaim := (rewrites_pmm (s:=vm) (allocFrames_takes halloc) fun m => v/0x1000 ≤ m).trans
      (claimFrame_rewrites _ (b%W32) _)
    have hstep := (hclaim.windowsOk hs).map h1 (by omega) hmap
    have hfirst := hclaim.trans (hstep.mono fun m hm => hm.ge)
    have hnext : (v+0x1000)%W32 = v+0x1000 := Nat.mod_eq_of_lt (by omega)
    rw [hnext] at h
    exact hfirst.trans ((ih (hfirst.windowsOk hs) (by omega) (by
      omega) h).mono fun m hm => by omega)

/-- Growing the heap changes nothing up to the page behind the window area. -/
theorem VmOk.growHeap (hs : VmOk vm) {n : ℕ} (hend : vm.heapEnd+n*0x1000 ≤ HEAP_END)
    (h : vm.growHeap n = .ok vm') :
    VmOk vm' ∧ vm'.directory = vm.directory ∧ vm'.heapEnd = vm.heapEnd+n*0x1000 ∧ ∀ m ≤ WINDOW_END,
        vm'.lookup vm.directory m = vm.lookup vm.directory m := by
  obtain ⟨vm₁,hmap,h⟩ := Result.bind_eq_ok.mp h
  obtain rfl := Except.ok.inj h
  have hstart : LOWMEM_START < HEAP_START := by decide
  have hlimit : HEAP_END < USABLE_MEMORY_END := by decide
  have hsize : WINDOW_END+1 ≤ HEAP_START/0x1000 := by decide
  have hwindow : WINDOW_END < 1023*1024 := by decide
  have hheap := hs.heap
  have hgrown : vm.Rewrites vm₁ fun m => vm.heapEnd/0x1000 ≤ m := by
    exact mapScattered_rewrites n hs.windowsOk (by omega) (hend.trans hlimit.le) hmap
  have hpage : HEAP_START/0x1000 ≤ vm.heapEnd/0x1000 := Nat.div_le_div_right hheap
  have hlook : ∀ m ≤ WINDOW_END, vm₁.lookup vm.directory m = vm.lookup vm.directory m :=
    fun m hm => hgrown.lookup_eq m (by omega) (by omega)
  have hok := hgrown.windowsOk hs.windowsOk
  refine ⟨⟨hok.withHeap _,?_,?_,?_⟩,hgrown.directory_eq,by rw [← hgrown.heap_eq],hlook⟩
  · exact hgrown.first_eq ▸ hs.aligned
  · have hguard := hlook WINDOW_END le_rfl
    rw [hs.guard,← hgrown.directory_eq] at hguard
    exact hguard
  · have hsame := hgrown.heap_eq
    dsimp only
    omega

theorem VmOk.settles (hs : VmOk vm) : vm.SearchSettles 1 := by
  obtain ⟨n,hn⟩ : ∃ n, vm.firstFreeAddress = n*0x1000 :=
    ⟨vm.firstFreeAddress/0x1000,by have := hs.aligned; omega⟩
  have hfirst := hs.windowsOk.first
  rw [hn] at hfirst
  have hend : LOWMEM_END = WINDOW_END*0x1000 := by decide
  have hmax : WINDOW_END < 0xFFFFF := by decide
  have hstart : LOWMEM_START = WINDOW_START*0x1000 := by decide
  have hguard : ¬vm.MappedFrom vm.firstFreeAddress (WINDOW_END-n) := by
    have haddr : (vm.firstFreeAddress+(WINDOW_END-n)*0x1000)%W32 = WINDOW_END*0x1000+0 := by
      rw [hn]
      simp only [W32]
      omega
    have htable : vm.IsTable vm.directory (WINDOW_END/1024) :=
      hs.windowsOk.kernel_tables _ (by decide) (by decide)
    rw [MappedFrom,haddr,hs.windowsOk.dirOk.virt2phys_eq (by decide) fun _ => htable.2.2,hs.guard]
    simp
  by_cases hfree : vm.MappedFrom vm.firstFreeAddress 0
  · have hex : ∃ o, ¬vm.MappedFrom vm.firstFreeAddress o := ⟨_,hguard⟩
    have hgap := Nat.find_spec hex
    have hleast : ∀ j < Nat.find hex, vm.MappedFrom vm.firstFreeAddress j := fun j hj =>
      not_not.mp (Nat.find_min hex hj)
    have hle : Nat.find hex ≤ WINDOW_END-n := Nat.find_min' hex hguard
    generalize Nat.find hex = o at hgap hleast hle
    refine ⟨o,.inr ⟨0,by decide,hfree,fun j hj => absurd hj (Nat.not_lt_zero j),Nat.zero_le o,
      fun j _ hj => hleast j hj,hgap⟩,?_,.inr fun i hi => ?_⟩
    · rw [hn]
      simp only [W32]
      omega
    · obtain rfl : i = 0 := by omega
      rwa [Nat.zero_add]
  · have hone : ∀ i < 1, ¬vm.MappedFrom vm.firstFreeAddress i := fun i hi => by
      obtain rfl : i = 0 := by omega
      exact hfree
    refine ⟨0,.inl ⟨rfl,hone⟩,?_,.inr fun i hi => hone i hi⟩
    rw [hn]
    simp only [W32]
    omega

theorem page_number_entry {p : ℕ} (hp : p < 0x100000) :
    present (p%W32 ||| (PAGE_PRESENT ||| PAGE_WRITABLE)) = true ∧
      page (p%W32 ||| (PAGE_PRESENT ||| PAGE_WRITABLE)) = p/0x1000 := by
  rw [Nat.mod_eq_of_lt (by simp only [W32]; omega)]
  constructor
  · exact present_or_odd rfl
  · have hdiv : (p ||| (PAGE_PRESENT ||| PAGE_WRITABLE))/0x1000 = p/0x1000 ||| 0 :=
      @Nat.or_div_two_pow p _ 12
    rw [Nat.or_zero] at hdiv
    rw [page,hdiv]
    exact Nat.mod_eq_of_lt (by omega)

/-- The window on page number `p` shows the frame with the number `p/0x1000`. -/
theorem VmOk.kMap (hs : VmOk vm) {p a : ℕ} (hp0 : p ≠ 0) (hp : p < 0x100000)
    (h : vm.kMap p 1 (PAGE_PRESENT ||| PAGE_WRITABLE) = .ok (a,vm')) : WindowPage a ∧ VmOk vm' ∧
      vm'.heapEnd = vm.heapEnd ∧ vm'.lookup vm'.directory (a/0x1000) = some (p/0x1000) := by
  obtain ⟨⟨o,ha⟩,hend,hmap⟩ := hs.windowsOk.kMap_region hs.settles h
  have hfirst := hs.windowsOk.first
  have haligned := hs.aligned
  have hlow : LOWMEM_START ≤ a := by omega
  have hlimit : LOWMEM_END < USABLE_MEMORY_END := by decide
  have hwindow : LOWMEM_END = WINDOW_END*0x1000 := by decide
  have hmax : WINDOW_END < 1023*1024 := by decide
  have hnew := hs.windowsOk.withFirst (a+1*0x1000) ⟨by omega,hend⟩
  have hmod : p%W32 = p := Nat.mod_eq_of_lt (by simp only [W32]; omega)
  rw [mapRegion_eq hp0,hmod] at hmap
  obtain ⟨vm₁,hpage,hrest⟩ := Result.bind_eq_ok.mp hmap
  obtain rfl := Except.ok.inj hrest
  have hclaim := claimFrame_rewrites { vm with firstFreeAddress := a+1*0x1000 } p (· = a/0x1000)
  have hok := hclaim.windowsOk hnew
  have hentry := hclaim.trans (hok.map hlow (by omega) hpage)
  refine ⟨⟨by omega,hlow,by omega⟩,⟨hentry.windowsOk hnew,?_,?_,?_⟩,hentry.heap_eq,?_⟩
  · rw [hentry.first_eq]
    dsimp only
    omega
  · have hguard := hentry.lookup_eq WINDOW_END hmax (by omega)
    rw [hentry.directory_eq]
    exact hguard.trans hs.guard
  · rw [hentry.heap_eq]
    exact hs.heap
  · have hlook := hok.map_lookup hlow (by omega) hp0 hpage
    have hflags : mapFlags (PAGE_PRESENT ||| PAGE_WRITABLE) = PAGE_PRESENT ||| PAGE_WRITABLE := rfl
    rw [hflags,if_pos (page_number_entry hp).1,(page_number_entry hp).2,
      hclaim.directory_eq] at hlook
    rw [hentry.directory_eq]
    exact hlook

theorem VmOk.virt2phys (hs : VmOk vm) {map o : ℕ} (hmap : WindowPage map) (ho : o < 0x1000) :
    vm.kMemPagingVirt2phys (map+o) = (vm.lookup vm.directory (map/0x1000)).elim 0 (fun f =>
      f*0x1000+o) := by
  obtain ⟨haligned,h1,h2⟩ := hmap
  have hlimit : LOWMEM_END < USABLE_MEMORY_END := by decide
  obtain ⟨hlo,hhi⟩ := window_slot h1 (show map < USABLE_MEMORY_END by omega)
  have hslot : PDE map = map/0x1000/1024 := by rw [PDE]; omega
  rw [hslot] at hlo hhi
  have haddr := hs.windowsOk.dirOk.virt2phys_eq (n:=map/0x1000) ho
    fun _ => (hs.windowsOk.kernel_tables _ hlo hhi).2.2
  rwa [Nat.div_mul_cancel (Nat.dvd_of_mod_eq_zero haligned)] at haddr

theorem WindowPage.add_mod {map o : ℕ} (h : WindowPage map) (ho : o < 0x1000) :
    (map+o)%W32 = map+o := by
  have hmax : LOWMEM_END < W32 := by decide
  exact Nat.mod_eq_of_lt (by have := h.2.2; omega)

variable {s s' : Mmio}

/-- Every register of a page outside page 0 translates to the page that the page's own number
lies in. -/
theorem Ok.register (hs : s.Ok) {address create push r : ℕ} (hpage : 0x1000 ≤ address)
    (hlt : address < W32) (hheap : s.vm.heapEnd+(create+push)*0x1000 ≤ HEAP_END)
    (hret : s.kMemMmioMapRegister address create push = .ok (r,s')) :
    s'.Ok ∧ s'.vm.kMemPagingVirt2phys r = address/0x1000/0x1000*0x1000+address%0x1000 := by
  have hoffset : address%0x1000 < 0x1000 := Nat.mod_lt _ (by decide)
  rw [Nat.add_mul,← Nat.add_assoc] at hheap
  have hp0 : address/0x1000 ≠ 0 := by omega
  have hp : address/0x1000 < 0x100000 := by simp only [W32] at hlt; omega
  obtain ⟨⟨mappings,vm⟩,hlist,hret⟩ := Result.bind_eq_ok.mp hret
  -- the list, and the machine after the heap has grown for it
  obtain ⟨hvm,hend,hpages⟩ : VmOk vm ∧ vm.heapEnd+push*0x1000 ≤ HEAP_END ∧ ∀ map ∈ mappings,
      WindowPage map := by
    rw [createList] at hlist
    cases hm : s.mappings with
    | some l =>
      rw [hm] at hlist
      obtain ⟨rfl,rfl⟩ := Prod.mk.inj (Except.ok.inj hlist)
      exact ⟨hs.vmOk,(Nat.add_le_add_right (Nat.le_add_right _ _) _).trans hheap,hs.pages _ hm⟩
    | none =>
      rw [hm] at hlist
      obtain ⟨vm₁,hgrow,hlist⟩ := Result.bind_eq_ok.mp hlist
      obtain ⟨rfl,rfl⟩ := Prod.mk.inj (Except.ok.inj hlist)
      obtain ⟨hvm,-,hsize,-⟩ := hs.vmOk.growHeap ((Nat.le_add_right _ _).trans hheap) hgrow
      exact ⟨hvm,by rwa [hsize],fun map hmap => absurd hmap List.not_mem_nil⟩
  dsimp only at hret
  by_cases hnew : kMemMmioGetMapping vm mappings (address/0x1000) = 0
  · rw [if_pos hnew] at hret
    obtain ⟨⟨map,vm₁⟩,hmap,hret⟩ := Result.bind_eq_ok.mp hret
    obtain ⟨vm₂,hgrow,hret⟩ := Result.bind_eq_ok.mp hret
    obtain ⟨rfl,rfl⟩ := Prod.mk.inj (Except.ok.inj hret)
    obtain ⟨hwindow,hvm₁,hheap₁,hlook⟩ := hvm.kMap hp0 hp hmap
    obtain ⟨hvm₂,hdir,-,hsame⟩ := hvm₁.growHeap (by omega) hgrow
    have hin : map/0x1000 ≤ WINDOW_END := by
      have hlast : LOWMEM_END = WINDOW_END*0x1000 := by decide
      have := hwindow.2.2
      omega
    refine ⟨⟨hvm₂,?_⟩,?_⟩
    · rintro l ⟨⟩ map' hmap'
      rcases List.mem_append.mp hmap' with hold | hlast
      · exact hpages map' hold
      · rwa [List.mem_singleton.mp hlast]
    · rw [hwindow.add_mod hoffset,hvm₂.virt2phys hwindow hoffset,hdir,hsame _ hin,hlook]
      rfl
  · rw [if_neg hnew] at hret
    obtain ⟨rfl,rfl⟩ := Prod.mk.inj (Except.ok.inj hret)
    -- an older mapping whose translation is the number of the page
    obtain ⟨map,hfind⟩ :
        ∃ map, mappings.find? (fun map => vm.kMemPagingVirt2phys map == address/0x1000) =
            some map := by
      cases hfind : mappings.find? fun map => vm.kMemPagingVirt2phys map == address/0x1000 with
      | none => exact absurd (by rw [kMemMmioGetMapping,hfind]; rfl) hnew
      | some map => exact ⟨map,rfl⟩
    have hwindow := hpages map (List.mem_of_find?_eq_some hfind)
    have hsame : vm.kMemPagingVirt2phys map = address/0x1000 :=
      beq_iff_eq.mp (@List.find?_some _ (fun map => vm.kMemPagingVirt2phys map ==
        address/0x1000) _ _ hfind)
    have haddr := hvm.virt2phys hwindow (show 0 < 0x1000 by decide)
    rw [Nat.add_zero,hsame] at haddr
    refine ⟨⟨hvm,?_⟩,?_⟩
    · rintro l ⟨⟩
      exact hpages
    · rw [kMemMmioGetMapping,hfind,Option.getD_some,hwindow.add_mod hoffset,
        hvm.virt2phys hwindow hoffset]
      cases hlook : vm.lookup vm.directory (map/0x1000) with
      | none =>
        rw [hlook] at haddr
        exact absurd haddr hp0
      | some f =>
        rw [hlook] at haddr
        simp only [Option.elim_some,Nat.add_zero] at haddr ⊢
        omega

theorem Call.ok (hs : s.Ok) (h : Call s s') : s'.Ok := by
  obtain ⟨address,create,push,r,hpage,hlt,hheap,hret⟩ := h
  exact (hs.register hpage hlt hheap hret).1

/-- No register outside page 0 is ever mapped to where it is. -/
theorem register_elsewhere {s₀ : Mmio} (h₀ : s₀.Ok) (hrun : Relation.ReflTransGen Call s₀ s)
    {address create push r : ℕ} (hpage : 0x1000 ≤ address) (hlt : address < W32)
    (hheap : s.vm.heapEnd+(create+push)*0x1000 ≤ HEAP_END)
    (hret : s.kMemMmioMapRegister address create push = .ok (r,s')) :
    s'.vm.kMemPagingVirt2phys r ≠ address := by
  have hs : s.Ok := reach_invariant (fun _ _ hs hcall => Call.ok hs hcall) h₀ hrun
  rw [(hs.register hpage hlt hheap hret).2]
  omega

theorem kernelMachine_ok : Ok ⟨kernelMachine,none⟩ :=
  ⟨⟨kernelMachine_windowsOk,by decide,by decide,le_rfl⟩,fun _ h => by cases h⟩

theorem register_elsewhere_apic :
    ∃ r s', kMemMmioMapRegister ⟨kernelMachine,none⟩ 0xFEE00020 0 0 = .ok (r,s') ∧
    s'.vm.kMemPagingVirt2phys r ≠ 0xFEE00020 := by
  have hret : (kMemMmioMapRegister ⟨kernelMachine,none⟩ 0xFEE00020 0 0).toOption.isSome =
    true := by decide +kernel
  obtain ⟨⟨r,s'⟩,hret⟩ := Option.isSome_iff_exists.mp hret
  have hret := Result.eq_ok_of_toOption hret
  exact ⟨r,s',hret,register_elsewhere kernelMachine_ok .refl (by decide) (by
    decide) (by decide) hret⟩

/-- A register of the local APIC: the window shows page 0xFE instead of page 0xFEE00. -/
theorem apic_register_elsewhere : ¬∀ s₀ s : Mmio, s₀.Ok → Relation.ReflTransGen Call s₀ s →
    ∀ (address create push r : ℕ) (s' : Mmio), 0x1000 ≤ address → address < W32 →
      s.vm.heapEnd+(create+push)*0x1000 ≤ HEAP_END →
      s.kMemMmioMapRegister address create push = .ok (r,s') →
      s'.vm.kMemPagingVirt2phys r = address := by
  intro h
  have hrun : (kMemMmioMapRegister ⟨kernelMachine,none⟩ 0xFEE00020 0 0).toOption.any
      (fun r : ℕ × Mmio => decide (r.2.vm.kMemPagingVirt2phys r.1 = 0xFE020)) = true := by
        decide +kernel
  obtain ⟨⟨r,s'⟩,hret,htranslation⟩ := (Option.any_eq_true _ _).mp hrun
  have hright :=
    h _ _ kernelMachine_ok .refl 0xFEE00020 0 0 r s' (by decide) (by decide) (by decide)
    (Result.eq_ok_of_toOption hret)
  rw [of_decide_eq_true htranslation] at hright
  exact absurd hright (by decide)

end Mmio
end ScalesOS
