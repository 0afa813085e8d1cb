import Vmir.TypeLayout

set_option autoImplicit false

/-!
# Placement of global variables

The records of a module hand out guest addresses one after the other; the heap starts behind them.
-/
namespace Vmir.GlobalPlacement
open Ir IrTypes Vmir.Alignment TypeLayout

/-- A negative exponent is taken as the shift of the host takes it, by its low five bits. -/
def vmirLlvmAlignment (align defaultAlignment : BitVec 32) : BitVec 32 :=
  if align = 0 then defaultAlignment
  else if (9 : BitVec 32).slt align then 256
  else ((1 : BitVec 32) <<< (align.toNat % 32)).sshiftRight 1

/-- `ir_globalvar_t` -/
structure Globalvar where
  igType : ℕ
  igAddr : BitVec 32
  igSize : BitVec 32
deriving DecidableEq, Repr

/-- `ir_initializer_t` -/
structure Initializer where
  globalvar : ℕ
  valueIndex : BitVec 32
deriving DecidableEq, Repr

/-- The unit while the module is read, with the global variables so far. -/
structure Loader where
  iu : IrUnit
  globalvars : List Globalvar
  initializers : List Initializer
  dataPtr : BitVec 32

/-- The type of the variable, which is a pointer, and what it points to. -/
def globalvarType (iu : IrUnit) (a0 a1 : BitVec 64) : Except Fault (ℕ × ℕ) :=
  if a1 &&& 2 ≠ 0 then
    match typeMakePointer iu (a0.setWidth 32) with
    | some type => .ok (type, (a0.setWidth 32).toNat)
    | none => .error (.parserError "No pointer type for pointee '%s'")
  else do
    let pointee ← typeGetPointee iu (a0.setWidth 32).toNat
    .ok ((a0.setWidth 32).toNat, pointee)

def moduleGlobalvar (depth : ℕ) (l : Loader) : List (BitVec 64) → Except Fault Loader
  | a0 :: a1 :: a2 :: _ :: a4 :: _ :: _ => do
    let (type, pointee) ← globalvarType l.iu a0 a1
    let alignment := vmirLlvmAlignment (a4.setWidth 32) 4
    if alignment = 0 then .error .abort
    else do
      let addr := alignWord l.dataPtr alignment
      let size ← typeSizeof l.iu depth pointee
      let initializer := a2.setWidth 32
      .ok {
        iu := { l.iu with values := l.iu.values ++ [⟨.globalvar addr, type⟩] }
        globalvars := l.globalvars ++ [⟨pointee, addr, size⟩]
        initializers := if initializer = 0 then l.initializers
          else l.initializers ++ [⟨l.iu.values.length, initializer - 1⟩]
        dataPtr := addr + size }
  | _ => .error (.parserError "Bad number of args for global var def")

/-- The records of the module, on the cursor that `vmir_load` starts from. -/
def loadGlobals (depth : ℕ) (iu : IrUnit) (records : List (List (BitVec 64))) :
    Except Fault Loader :=
  records.foldlM (moduleGlobalvar depth) ⟨iu, [], [], 4096⟩

/-- `iu_heap_start` -/
def Loader.heapStart (l : Loader) : BitVec 32 := alignWord l.dataPtr 4096

/-! ## What a record asks for -/

/-- The alignment of a record, given by its logarithm and 1, and the size of its type. -/
structure Request where
  log : ℕ
  size : ℕ
deriving DecidableEq, Repr

def Request.alignment (r : Request) : ℕ := if r.log = 0 then 1 else 2 ^ (r.log - 1)

def request (depth : ℕ) (iu : IrUnit) : List (BitVec 64) → Request
  | a0 :: a1 :: _ :: _ :: a4 :: _ =>
    match globalvarType iu a0 a1 >>= fun t => typeSizeof iu depth t.2 with
    | .ok size => ⟨a4.toNat, size.toNat⟩
    | .error _ => ⟨a4.toNat, 0⟩
  | _ => ⟨0, 0⟩

/-- A variable is at a multiple of its alignment, above the reserved area and below the heap. -/
structure Placed (heapStart : ℕ) (r : Request) (ig : Globalvar) : Prop where
  size : ig.igSize.toNat = r.size
  aligned : r.alignment ∣ ig.igAddr.toNat
  above : 4096 ≤ ig.igAddr.toNat
  below : ig.igAddr.toNat + ig.igSize.toNat ≤ heapStart

/-- The variables are placed, they do not overlap, and the heap starts in guest memory. -/
structure WellPlaced (memsize : BitVec 32) (requests : List Request) (l : Loader) : Prop where
  placed : List.Forall₂ (Placed l.heapStart.toNat) requests l.globalvars
  disjoint : l.globalvars.Pairwise fun x y =>
    x.igAddr.toNat + x.igSize.toNat ≤ y.igAddr.toNat
      ∨ y.igAddr.toNat + y.igSize.toNat ≤ x.igAddr.toNat
  memory : l.heapStart.toNat ≤ memsize.toNat

/-- The alignment that is granted: 4 if none is asked for, and no more than 256. -/
def Request.granted (r : Request) : ℕ := if r.log = 0 then 4 else min 256 r.alignment

/-- The requests fit between `p` and the end of memory, counted without bound, and those that ask
for more than they are granted get it by chance. -/
def Fits (memsize : ℕ) : ℕ → List Request → Prop
  | p, [] => roundUp p 4096 ≤ memsize
  | p, r :: rs => r.alignment ∣ roundUp p r.granted ∧ Fits memsize (roundUp p r.granted + r.size) rs

instance (memsize : ℕ) : (p : ℕ) → (rs : List Request) → Decidable (Fits memsize p rs)
  | p, [] => inferInstanceAs (Decidable (roundUp p 4096 ≤ memsize))
  | p, r :: rs =>
    have := instDecidableFits memsize (roundUp p r.granted + r.size) rs
    inferInstanceAs (Decidable (r.alignment ∣ roundUp p r.granted ∧ _))

/-! ## One record -/

section
variable {iu iu' : IrUnit} (htypes : iu'.types = iu.types)
include htypes

theorem typeGet_congr (id : ℕ) : typeGet iu' id = typeGet iu id := by
  unfold typeGet
  rw [htypes]

theorem unsizedError_congr (it : IrType) (msg : String) :
    unsizedError iu' it msg = unsizedError iu it msg := by
  unfold unsizedError TypePrint.typeStr
  rw [htypes]

theorem typeSizeofPtr_congr (depth : ℕ) (it : IrType) :
    typeSizeofPtr iu' depth it = typeSizeofPtr iu depth it := by
  induction depth generalizing it with
  | zero =>
    cases it with
    | function v r ps => exact unsizedError_congr htypes _ _
    | _ => rfl
  | succ depth ih =>
    cases it with
    | array n e =>
      unfold typeSizeofPtr
      rw [typeGet_congr htypes]
      exact bind_congr fun it => by rw [ih]
    | function v r ps => exact unsizedError_congr htypes _ _
    | _ => rfl

theorem globalvarType_congr (a0 a1 : BitVec 64) :
    globalvarType iu' a0 a1 = globalvarType iu a0 a1 := by
  unfold globalvarType typeMakePointer typeGetPointee
  rw [typeGet_congr htypes, htypes]

theorem request_congr (depth : ℕ) (argv : List (BitVec 64)) :
    request depth iu' argv = request depth iu argv := by
  have hsize : ∀ index, typeSizeof iu' depth index = typeSizeof iu depth index := by
    intro index
    unfold typeSizeof
    rw [typeGet_congr htypes]
    exact bind_congr fun it => typeSizeofPtr_congr htypes depth it
  unfold request
  split
  · rw [globalvarType_congr htypes]
    simp only [hsize]
  · rfl

end

variable {depth : ℕ} {l l' : Loader} {argv : List (BitVec 64)}

theorem moduleGlobalvar_spec (h : moduleGlobalvar depth l argv = .ok l') :
    l'.iu.types = l.iu.types ∧ ∃ ig : Globalvar, l'.globalvars = l.globalvars ++ [ig]
      ∧ ig.igAddr = alignWord l.dataPtr
          (vmirLlvmAlignment (BitVec.ofNat 32 (request depth l.iu argv).log) 4)
      ∧ ig.igSize.toNat = (request depth l.iu argv).size
      ∧ l'.dataPtr = ig.igAddr + ig.igSize := by
  unfold moduleGlobalvar at h
  split at h
  case h_2 => exact nomatch h
  case h_1 a0 a1 a2 a3 a4 a5 rest =>
  cases ht : globalvarType l.iu a0 a1 with
  | error e =>
    rw [ht] at h
    exact nomatch h
  | ok t =>
  rw [ht] at h
  change (if vmirLlvmAlignment (a4.setWidth 32) 4 = 0 then _ else _) = _ at h
  by_cases hzero : vmirLlvmAlignment (a4.setWidth 32) 4 = 0
  · rw [if_pos hzero] at h
    exact nomatch h
  · rw [if_neg hzero] at h
    cases hs : typeSizeof l.iu depth t.2 with
    | error e =>
      rw [hs] at h
      exact nomatch h
    | ok size =>
      rw [hs] at h
      obtain rfl := Except.ok.inj h
      have hlog : BitVec.ofNat 32 a4.toNat = a4.setWidth 32 := rfl
      have hrequest : request depth l.iu (a0 :: a1 :: a2 :: a3 :: a4 :: a5 :: rest)
          = ⟨a4.toNat, size.toNat⟩ := by
        unfold request
        dsimp only
        rw [ht]
        change (match typeSizeof l.iu depth t.2 with | .ok size => _ | .error _ => _) = _
        rw [hs]
      rw [hrequest]
      exact ⟨rfl, _, rfl, by rw [hlog], rfl, rfl⟩

/-! ## Many records -/

/-- The variables that are handed out for the requests from the cursor `p` on. -/
def Handed : BitVec 32 → List Request → List Globalvar → BitVec 32 → Prop
  | p, [], [], q => q = p
  | p, r :: rs, ig :: igs, q =>
    ig.igAddr = alignWord p (vmirLlvmAlignment (BitVec.ofNat 32 r.log) 4)
      ∧ ig.igSize.toNat = r.size ∧ Handed (ig.igAddr + ig.igSize) rs igs q
  | _, _, _, _ => False

theorem foldlM_handed {records : List (List (BitVec 64))}
    (h : records.foldlM (moduleGlobalvar depth) l = .ok l') :
    ∃ igs, l'.globalvars = l.globalvars ++ igs
      ∧ Handed l.dataPtr (records.map (request depth l.iu)) igs l'.dataPtr := by
  induction records generalizing l with
  | nil =>
    obtain rfl := Except.ok.inj h
    exact ⟨[], (List.append_nil _).symm, rfl⟩
  | cons argv records ih =>
    rw [List.foldlM_cons] at h
    cases hm : moduleGlobalvar depth l argv with
    | error e =>
      rw [hm] at h
      exact nomatch h
    | ok l1 =>
      rw [hm] at h
      obtain ⟨htypes, ig, hglobals, haddr, hsize, hptr⟩ := moduleGlobalvar_spec hm
      obtain ⟨igs, hglobals', hhanded⟩ := ih h
      rw [hptr, List.map_congr_left fun argv _ => request_congr htypes depth argv] at hhanded
      refine ⟨ig :: igs, ?_, haddr, hsize, hhanded⟩
      rw [hglobals', hglobals, List.append_assoc]
      rfl

/-! ## The placement -/

section
variable {r : Request} {rs : List Request} {ig : Globalvar} {igs : List Globalvar}
  {p q : BitVec 32}

theorem llvmAlignment_granted (h : r.log ≤ 32) : ∃ k < 13,
    vmirLlvmAlignment (BitVec.ofNat 32 r.log) 4 = BitVec.ofNat 32 (2 ^ k) ∧ r.granted = 2 ^ k := by
  have hsmall : ∀ log : Fin 33, vmirLlvmAlignment (BitVec.ofNat 32 log) 4
      = BitVec.ofNat 32 (2 ^ if log.val = 0 then 2 else min 8 (log.val - 1)) := by decide
  refine ⟨if r.log = 0 then 2 else min 8 (r.log - 1), ?_, hsmall ⟨r.log, by omega⟩, ?_⟩
  · split <;> omega
  · unfold Request.granted Request.alignment
    by_cases hzero : r.log = 0
    · rw [if_pos hzero, if_pos hzero]
      rfl
    · rw [if_neg hzero, if_neg hzero, if_neg hzero]
      rcases Nat.le_total 8 (r.log - 1) with hle | hle
      · rw [Nat.min_eq_left hle]
        exact Nat.min_eq_left (Nat.pow_le_pow_right Nat.two_pos hle)
      · rw [Nat.min_eq_right hle]
        exact Nat.min_eq_right (Nat.pow_le_pow_right Nat.two_pos hle)

theorem granted_pos (r : Request) : 0 < r.granted := by
  unfold Request.granted Request.alignment
  split
  · decide
  · exact Nat.lt_min.mpr ⟨by decide, Nat.two_pow_pos _⟩

theorem log_le {n : ℕ} (hdvd : r.alignment ∣ n) (hpos : 0 < n) (hlt : n < 2 ^ 32) : r.log ≤ 32 := by
  have hle := Nat.le_of_dvd hpos hdvd
  unfold Request.alignment at hle
  split at hle
  case isTrue => omega
  case isFalse =>
    have hpow : 2 ^ (r.log - 1) < 2 ^ 32 := by omega
    have := (Nat.pow_lt_pow_iff_right (by decide)).mp hpow
    omega

theorem fits_le {m n : ℕ} (h : Fits m n rs) : n ≤ m := by
  induction rs generalizing n with
  | nil => exact (le_roundUp n (by decide)).trans h
  | cons r rs ih =>
    have := ih h.2
    have := le_roundUp n (granted_pos r)
    omega

theorem page_of_lt (h : roundUp q.toNat 4096 < 2 ^ 32) :
    (alignWord q 4096).toNat = roundUp q.toNat 4096 := by
  have hpow : 2 ^ 12 = 4096 := by decide
  have hword := @alignWord_of_lt q 12 (by decide)
  rw [hpow] at hword
  exact hword h

theorem page_of_le (h : 2 ^ 32 ≤ roundUp q.toNat 4096) : (alignWord q 4096).toNat = 0 := by
  have hpow : 2 ^ 12 = 4096 := by decide
  have hword := @alignWord_of_le q 12 (by decide)
  rw [hpow] at hword
  exact hword h

theorem placed_of_fits {memsize : ℕ} (hmemsize : memsize < 2 ^ 32) (h : Handed p rs igs q)
    (hp : 4096 ≤ p.toNat) (hfits : Fits memsize p.toNat rs) :
    List.Forall₂ (Placed (alignWord q 4096).toNat) rs igs
      ∧ (igs.Pairwise fun x y => x.igAddr.toNat + x.igSize.toNat ≤ y.igAddr.toNat)
      ∧ (∀ x ∈ igs, p.toNat ≤ x.igAddr.toNat)
      ∧ p.toNat ≤ (alignWord q 4096).toNat ∧ (alignWord q 4096).toNat ≤ memsize := by
  induction rs generalizing p igs with
  | nil =>
    cases igs with
    | cons ig igs => exact h.elim
    | nil =>
      obtain rfl : q = p := h
      have hround : roundUp q.toNat 4096 ≤ memsize := hfits
      have hle := le_roundUp q.toNat (show 0 < 4096 by decide)
      have heq : (alignWord q 4096).toNat = roundUp q.toNat 4096 :=
        page_of_lt (Nat.lt_of_le_of_lt hround hmemsize)
      rw [heq]
      exact ⟨List.Forall₂.nil, List.Pairwise.nil, nofun, hle, hround⟩
  | cons r rs ih =>
    cases igs with
    | nil => exact h.elim
    | cons ig igs =>
      obtain ⟨haddr, hsize, hrest⟩ := h
      obtain ⟨hdvd, hfits⟩ := hfits
      have hend := fits_le hfits
      have hle := le_roundUp p.toNat (granted_pos r)
      obtain ⟨k, hk, halign, hgranted⟩ := llvmAlignment_granted
        (log_le hdvd (by omega) (by omega))
      have haddr : ig.igAddr.toNat = roundUp p.toNat r.granted := by
        have hlt : roundUp p.toNat (2 ^ k) < 2 ^ 32 := by
          rw [← hgranted]
          omega
        have hword := @alignWord_of_lt p k (by omega) hlt
        rw [haddr, halign, hgranted, hword]
      have hnext : (ig.igAddr + ig.igSize).toNat = roundUp p.toNat r.granted + r.size := by
        rw [BitVec.toNat_add, haddr, hsize, Nat.mod_eq_of_lt (by omega)]
      obtain ⟨hplaced, hpair, hafter, hlo, hhi⟩ := ih hrest (by omega) (hnext ▸ hfits)
      refine ⟨List.Forall₂.cons ⟨hsize, haddr ▸ hdvd, by omega, by omega⟩ hplaced,
        List.pairwise_cons.mpr ⟨fun x hx => ?_, hpair⟩, ?_, by omega, hhi⟩
      · have := hafter x hx
        omega
      · intro x hx
        rcases List.mem_cons.mp hx with rfl | hx
        · omega
        · have := hafter x hx
          omega

theorem fits_of_placed {memsize : ℕ} (h : Handed p rs igs q) (hp : 4096 ≤ p.toNat)
    (hheap : p.toNat ≤ (alignWord q 4096).toNat)
    (hplaced : List.Forall₂ (Placed (alignWord q 4096).toNat) rs igs)
    (hmemory : (alignWord q 4096).toNat ≤ memsize) : Fits memsize p.toNat rs := by
  induction hplaced generalizing p with
  | nil =>
    obtain rfl : q = p := h
    change roundUp q.toNat 4096 ≤ memsize
    rcases Nat.lt_or_ge (roundUp q.toNat 4096) (2 ^ 32) with hlt | hge
    · have := page_of_lt hlt
      omega
    · have := page_of_le hge
      omega
  | @cons r ig rs igs hig hplaced ih =>
    obtain ⟨haddr, hsize, hrest⟩ := h
    obtain ⟨-, hdvd, habove, hbelow⟩ := hig
    have hlt := (alignWord q 4096).isLt
    obtain ⟨k, hk, halign, hgranted⟩ := llvmAlignment_granted
      (log_le hdvd (by omega) (by omega))
    have hround : ig.igAddr.toNat = roundUp p.toNat r.granted := by
      rcases Nat.lt_or_ge (roundUp p.toNat (2 ^ k)) (2 ^ 32) with hlt | hge
      · have hword := @alignWord_of_lt p k (by omega) hlt
        rw [haddr, halign, hgranted, hword]
      · have hword := @alignWord_of_le p k (by omega) hge
        rw [haddr, halign, hword] at habove
        exact absurd habove (by decide)
    have hnext : (ig.igAddr + ig.igSize).toNat = roundUp p.toNat r.granted + r.size := by
      rw [BitVec.toNat_add, hround, hsize, Nat.mod_eq_of_lt (by omega)]
    refine ⟨hround ▸ hdvd, ?_⟩
    rw [← hnext]
    exact ih hrest (by omega) (by omega)

theorem start_le (h : Handed 4096 rs igs q)
    (hplaced : List.Forall₂ (Placed (alignWord q 4096).toNat) rs igs) :
    (4096 : BitVec 32).toNat ≤ (alignWord q 4096).toNat := by
  cases hplaced with
  | nil =>
    obtain rfl : q = 4096 := h
    decide
  | cons hig hrest => exact (hig.above.trans (Nat.le_add_right ..)).trans hig.below

end

/-! ## The module -/

section
variable {iu : IrUnit} {records : List (List (BitVec 64))} {memsize : BitVec 32}

theorem loadGlobals_handed (h : loadGlobals depth iu records = .ok l) :
    Handed 4096 (records.map (request depth iu)) l.globalvars l.dataPtr := by
  obtain ⟨igs, hglobals, hhanded⟩ := foldlM_handed h
  rw [hglobals]
  exact hhanded

/-- The module's variables are well placed exactly if they fit. -/
theorem wellPlaced_iff (h : loadGlobals depth iu records = .ok l) :
    WellPlaced memsize (records.map (request depth iu)) l
      ↔ Fits memsize.toNat 4096 (records.map (request depth iu)) := by
  have hhanded := loadGlobals_handed h
  constructor
  · intro hwell
    exact fits_of_placed hhanded (le_refl 4096) (start_le hhanded hwell.placed) hwell.placed
      hwell.memory
  · intro hfits
    obtain ⟨hplaced, hpair, -, -, hmemory⟩ :=
      placed_of_fits memsize.isLt hhanded (le_refl 4096) hfits
    exact ⟨hplaced, hpair.imp Or.inl, hmemory⟩

def overAligned : List (List (BitVec 64)) := [[0, 2, 0, 0, 3, 0], [0, 2, 0, 0, 10, 0]]

def wordUnit : IrUnit := ⟨[.int32, .pointer (some 0)], [], fun _ => 0⟩

/-- An alignment of 512 is cut to 256. -/
theorem overAligned_misplaced : ¬ ∀ l, loadGlobals 1 wordUnit overAligned = .ok l →
    WellPlaced 65536 (overAligned.map (request 1 wordUnit)) l := by
  intro h
  have hload : loadGlobals 1 wordUnit overAligned
      = .ok ⟨{ wordUnit with values := [⟨.globalvar 4096, 1⟩, ⟨.globalvar 4352, 1⟩] },
          [⟨0, 4096, 4⟩, ⟨0, 4352, 4⟩], [], 4356⟩ := rfl
  have hrequests : overAligned.map (request 1 wordUnit) = [⟨3, 4⟩, ⟨10, 4⟩] := by decide
  have hplaced := (h _ hload).placed
  rw [hrequests] at hplaced
  cases hplaced with
  | cons _ hrest =>
    cases hrest with
    | cons hig _ => exact absurd hig.aligned (by decide)

/-- Bytes, a 64-bit integer and an array of three bytes, each behind a pointer type. -/
def mixedUnit : IrUnit where
  types := [.int8, .pointer (some 0), .int64, .pointer (some 2), .array 3 0, .pointer (some 4)]
  values := []
  textAlloc := fun _ => 0

/-- A byte, a 64-bit integer at 8, the array at no alignment of its own, and a byte at 256. -/
def mixedRecords : List (List (BitVec 64)) :=
  [[0, 2, 0, 0, 1, 0], [2, 2, 0, 0, 4, 0], [4, 2, 0, 0, 0, 0], [0, 2, 0, 0, 9, 0]]

theorem wellPlaced_iff_mixed : ∃ l, loadGlobals 1 mixedUnit mixedRecords = .ok l
    ∧ l.globalvars.map Globalvar.igAddr = [4096, 4104, 4112, 4352]
    ∧ WellPlaced 65536 [⟨1, 1⟩, ⟨4, 8⟩, ⟨0, 3⟩, ⟨9, 1⟩] l := by
  obtain ⟨l, hload, haddrs⟩ : ∃ l, loadGlobals 1 mixedUnit mixedRecords = .ok l
      ∧ l.globalvars.map Globalvar.igAddr = [4096, 4104, 4112, 4352] := ⟨_, rfl, rfl⟩
  have hrequests : mixedRecords.map (request 1 mixedUnit)
      = [⟨1, 1⟩, ⟨4, 8⟩, ⟨0, 3⟩, ⟨9, 1⟩] := by decide
  have hwell := (@wellPlaced_iff 1 l mixedUnit mixedRecords 65536 hload).mpr (by decide)
  rw [hrequests] at hwell
  exact ⟨l, hload, haddrs, hwell⟩

end

end Vmir.GlobalPlacement
