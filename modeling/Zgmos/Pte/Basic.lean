import Zgmos.Kernel.Fault

namespace Zgmos.Pte

abbrev Word := BitVec 64

inductive PageSize
  | page4K
  | page2M
  | page1G
  deriving DecidableEq, Repr

-- The macros of `utils.h`, `pte.h` and `pg.h`.

def allOneMask (n : Nat) : Word :=
  (1 <<< n) - 1

def align4K (a : Word) : Word :=
  a &&& ~~~allOneMask 12

def vaVpn2 (va : Word) : BitVec 9 :=
  va.extractLsb' 30 9

def vaVpn1 (va : Word) : BitVec 9 :=
  va.extractLsb' 21 9

def vaVpn0 (va : Word) : BitVec 9 :=
  va.extractLsb' 12 9

def pteInvalid : Word :=
  0

def pteNonLeaf : Word :=
  1

def pteNaddr (addr : Word) : Word :=
  align4K addr >>> 2

def pteExtractXwrv (pte : Word) : Word :=
  pte &&& allOneMask 4

def pteExtractNaddr (pte : Word) : Word :=
  (pte <<< 2) &&& ~~~allOneMask 12

def pteExtractFlags (pte : Word) : Word :=
  pte &&& allOneMask 10

-- The memory as far as it is used for tables: a table is an aligned page of 512 entries.
abbrev Mem := Word → BitVec 9 → Word

-- A panic leaves the memory as it is at that moment.
abbrev PteM := ExceptT Fault (StateM Mem)

def readPte (table : Word) (i : BitVec 9) : PteM Word :=
  return (← get) table i

def Mem.write (mem : Mem) (table : Word) (i : BitVec 9) (pte : Word) : Mem :=
  Function.update mem table <| Function.update (mem table) i pte

def writePte (table : Word) (i : BitVec 9) (pte : Word) : PteM Unit :=
  modify (·.write table i pte)

def Mem.clear (mem : Mem) (table : Word) : Mem :=
  Function.update mem table fun _ => 0

-- `memset(table, 0, PAGE_SIZE)`
def clearTable (table : Word) : PteM Unit :=
  modify (·.clear table)

-- In the following functions `pmem n` is the result of the call number `n` of `pmem_alloc(0)`.

def pteCreate (pmem : Nat → Word) : PteM Word := do
  let p := pmem 0
  if p ≠ 0 then
    clearTable p
  return p

def pteMap (pmem : Nat → Word) (p va pa flags : Word) (pageSize : PageSize) : PteM Unit := do
  let pte₂ ← readPte p (vaVpn2 va)
  let xwrv₂ := pteExtractXwrv pte₂
  match pageSize with
  | .page4K =>
    if xwrv₂ = pteNonLeaf then
      let p₁ := pteExtractNaddr pte₂
      let pte₁ ← readPte p₁ (vaVpn1 va)
      let xwrv₁ := pteExtractXwrv pte₁
      if xwrv₁ = pteNonLeaf then
        let p₀ := pteExtractNaddr pte₁
        let pte₀ ← readPte p₀ (vaVpn0 va)
        let xwrv₀ := pteExtractXwrv pte₀
        if xwrv₀ = pteInvalid then
          writePte p₀ (vaVpn0 va) (pteNaddr pa ||| flags)
        else
          throw .panic
      else if xwrv₁ = pteInvalid then
        let p₀ := pmem 0
        clearTable p₀
        writePte p₀ (vaVpn0 va) (pteNaddr pa ||| flags)
        writePte p₁ (vaVpn1 va) (pteNonLeaf ||| pteNaddr p₀)
      else
        throw .panic
    else if xwrv₂ = pteInvalid then
      let p₁ := pmem 0
      clearTable p₁
      let p₀ := pmem 1
      clearTable p₀
      writePte p (vaVpn2 va) (pteNaddr p₁ ||| pteNonLeaf)
      writePte p₁ (vaVpn1 va) (pteNaddr p₀ ||| pteNonLeaf)
      writePte p₀ (vaVpn0 va) (pteNaddr pa ||| flags)
    else
      throw .panic
  | .page2M =>
    if xwrv₂ = pteNonLeaf then
      let p₁ := pteExtractNaddr pte₂
      let xwrv₁ := pteExtractXwrv (← readPte p₁ <| vaVpn1 va)
      if xwrv₁ = pteInvalid then
        writePte p₁ (vaVpn1 va) (flags ||| pteNaddr pa)
      else
        throw .panic
    else if xwrv₂ = pteInvalid then
      let p₁ := pmem 0
      clearTable p₁
      writePte p (vaVpn2 va) (pteNaddr p₁ ||| pteNonLeaf)
      writePte p₁ (vaVpn1 va) (pteNaddr pa ||| flags)
    else
      throw .panic
  | .page1G =>
    if xwrv₂ ≠ pteInvalid then
      throw .panic
    writePte p (vaVpn2 va) (flags ||| pteNaddr pa)

-- The number of calls of `pmem_alloc(0)` in `pte_map`.
def pteMapAllocs (mem : Mem) (p va : Word) (pageSize : PageSize) : Nat :=
  let pte₂ := mem p (vaVpn2 va)
  let xwrv₂ := pteExtractXwrv pte₂
  let xwrv₁ := pteExtractXwrv <| mem (pteExtractNaddr pte₂) (vaVpn1 va)
  match pageSize with
  | .page4K =>
    if xwrv₂ = pteNonLeaf then
      if xwrv₁ = pteInvalid then 1 else 0
    else
      if xwrv₂ = pteInvalid then 2 else 0
  | .page2M => if xwrv₂ = pteInvalid then 1 else 0
  | .page1G => 0

def pteUnmap (p va : Word) : PteM Unit := do
  let pte₂ ← readPte p (vaVpn2 va)
  let xwrv₂ := pteExtractXwrv pte₂
  if xwrv₂ = pteInvalid then
    throw .panic
  if xwrv₂ = pteNonLeaf then
    let p₁ := pteExtractNaddr pte₂
    let pte₁ ← readPte p₁ (vaVpn1 va)
    let xwrv₁ := pteExtractXwrv pte₁
    if xwrv₁ = pteInvalid then
      throw .panic
    if xwrv₁ = pteNonLeaf then
      let p₀ := pteExtractNaddr pte₁
      let xwrv₀ := pteExtractXwrv (← readPte p₀ <| vaVpn0 va)
      if xwrv₀ = pteInvalid then
        throw .panic
      else
        writePte p₀ (vaVpn0 va) 0
    else
      writePte p₁ (vaVpn1 va) 0
  else
    writePte p (vaVpn2 va) 0

-- What `pte_walk` returns or writes through its arguments.
structure Walk where
  addr     : Word
  flags    : Word
  pageSize : PageSize
  deriving DecidableEq

def pteWalk (mem : Mem) (p va : Word) : Walk :=
  let pte₂ := mem p (vaVpn2 va)
  let (res, pstmp) :=
    if pteExtractXwrv pte₂ = pteNonLeaf then
      let p₁ := pteExtractNaddr pte₂
      let pte₁ := mem p₁ (vaVpn1 va)
      if pteExtractXwrv pte₁ = pteNonLeaf then
        let p₀ := pteExtractNaddr pte₁
        (mem p₀ (vaVpn0 va), PageSize.page4K)
      else
        (pte₁, .page2M)
    else
      (pte₂, .page1G)
  { addr := pteExtractNaddr res, flags := pteExtractFlags res, pageSize := pstmp }

end Zgmos.Pte
