import Mathlib.Algebra.Ring.Int.Defs
import Somenote.Bytes.Words

/-! # The allocator

The functions of `mm.c`, with first fit, and `mem_sbrk` of `memlib.c`. The loops over the blocks
have an amount of fuel, and are undecided without it.
-/

namespace Somenote.Malloc

def WSIZE : ℕ := 4

def DSIZE : ℕ := 8

def CHUNKSIZE : ℕ := 2 ^ 12

/-- The area that `mem_init` gets. `Malloc` aligns it, and the constant `MAX_HEAP` is not among the
sources. A word holds each size up to it. -/
structure Arena where
  mem_heap : ℕ
  MAX_HEAP : ℕ
  aligned : 8 ∣ mem_heap
  pos : 0 < mem_heap
  room : 4 * WSIZE ≤ MAX_HEAP
  word : MAX_HEAP < 2 ^ 32

/-- The memory and the two variables that are not constant. -/
structure Heap where
  mem : Mem
  mem_brk : ℕ
  heap_listp : ℕ

/-- The state behind `mem_init`, over any contents. -/
def memInit (A : Arena) (mem : Mem) : Heap := ⟨mem, A.mem_heap, 0⟩

/-- The old break, or `none` for `(void *)-1`. -/
def memSbrk (A : Arena) (incr : ℤ) (s : Heap) : Option (ℕ × Heap) :=
  if incr < 0 ∨ s.mem_brk + incr.toNat > A.mem_heap + A.MAX_HEAP then none
  else some (s.mem_brk, { s with mem_brk := s.mem_brk + incr.toNat })

def PACK (size alloc : ℕ) : ℕ := size ||| alloc

def HDRP (bp : ℕ) : ℕ := bp - WSIZE

namespace Heap

variable (s : Heap)

def GET (p : ℕ) : ℕ := s.mem.word p

def PUT (p val : ℕ) : Heap := { s with mem := s.mem.putWord p val }

/-- The mask is `~0x7` as an `unsigned int`. -/
def GET_SIZE (p : ℕ) : ℕ := s.GET p &&& 0xfffffff8

def GET_ALLOC (p : ℕ) : ℕ := s.GET p &&& 1

def FTRP (bp : ℕ) : ℕ := bp + s.GET_SIZE (HDRP bp) - DSIZE

def NEXT_BLKP (bp : ℕ) : ℕ := bp + s.GET_SIZE (bp - WSIZE)

def PREV_BLKP (bp : ℕ) : ℕ := bp - s.GET_SIZE (bp - DSIZE)

end Heap

def coalesce (s : Heap) (bp : ℕ) : ℕ × Heap :=
  let prev_alloc := s.GET_ALLOC (s.FTRP (s.PREV_BLKP bp))
  let next_alloc := s.GET_ALLOC (HDRP (s.NEXT_BLKP bp))
  let size := s.GET_SIZE (HDRP bp)
  if prev_alloc ≠ 0 ∧ next_alloc ≠ 0 then (bp, s)
  else if prev_alloc ≠ 0 ∧ next_alloc = 0 then
    let size := size + s.GET_SIZE (HDRP (s.NEXT_BLKP bp))
    let s := s.PUT (HDRP bp) (PACK size 0)
    let s := s.PUT (s.FTRP bp) (PACK size 0)
    (bp, s)
  else if prev_alloc = 0 ∧ next_alloc ≠ 0 then
    let size := size + s.GET_SIZE (HDRP (s.PREV_BLKP bp))
    let s := s.PUT (s.FTRP bp) (PACK size 0)
    let s := s.PUT (HDRP (s.PREV_BLKP bp)) (PACK size 0)
    (s.PREV_BLKP bp, s)
  else
    let size := size + (s.GET_SIZE (HDRP (s.PREV_BLKP bp)) + s.GET_SIZE (s.FTRP (s.NEXT_BLKP bp)))
    let s := s.PUT (HDRP (s.PREV_BLKP bp)) (PACK size 0)
    let s := s.PUT (s.FTRP (s.NEXT_BLKP bp)) (PACK size 0)
    (s.PREV_BLKP bp, s)

def extendHeap (A : Arena) (words : ℕ) (s : Heap) : Option (ℕ × Heap) :=
  let size : ℕ := if words % 2 ≠ 0 then (words + 1) * WSIZE % 2 ^ 64 else words * WSIZE % 2 ^ 64
  match memSbrk A (toInt size) s with
  | none => none
  | some (bp, s) =>
    let s := s.PUT (HDRP bp) (PACK size 0)
    let s := s.PUT (s.FTRP bp) (PACK size 0)
    let s := s.PUT (HDRP (s.NEXT_BLKP bp)) (PACK 0 1)
    some (coalesce s bp)

/-- The value is `-1` when one of the two areas is not there. The first one always is, by the field
`room`, so that `heap_listp` never gets the `(void *)-1` of a failing `mem_sbrk`. -/
def mmInit (A : Arena) (s : Heap) : ℤ × Heap :=
  match memSbrk A (4 * WSIZE) s with
  | none => (-1, s)
  | some (heap_listp, s) =>
    let s := s.PUT heap_listp 0
    let s := s.PUT (heap_listp + 1 * WSIZE) (PACK DSIZE 1)
    let s := s.PUT (heap_listp + 2 * WSIZE) (PACK DSIZE 1)
    let s := s.PUT (heap_listp + 3 * WSIZE) (PACK 0 1)
    let s := { s with heap_listp := heap_listp + 2 * WSIZE }
    match extendHeap A (CHUNKSIZE / WSIZE) s with
    | none => (-1, s)
    | some (_, s) => (0, s)

/-- The loop of `find_fit`. The first `none` is a search that is not over. -/
def fitLoop (s : Heap) (asize : ℕ) : ℕ → ℕ → Option (Option ℕ)
  | 0, _ => none
  | fuel + 1, bp =>
    if s.GET_SIZE (HDRP bp) > 0 then
      if s.GET_ALLOC (HDRP bp) = 0 ∧ asize ≤ s.GET_SIZE (HDRP bp) then some (some bp)
      else fitLoop s asize fuel (s.NEXT_BLKP bp)
    else some none

def findFit (fuel : ℕ) (s : Heap) (asize : ℕ) : Option (Option ℕ) :=
  fitLoop s asize fuel s.heap_listp

def place (s : Heap) (bp asize : ℕ) : Heap :=
  let csize := s.GET_SIZE (HDRP bp)
  if sizeSub csize asize ≥ 2 * DSIZE then
    let s := s.PUT (HDRP bp) (PACK asize 1)
    let s := s.PUT (s.FTRP bp) (PACK asize 1)
    let bp := s.NEXT_BLKP bp
    let s := s.PUT (HDRP bp) (PACK (sizeSub csize asize) 0)
    s.PUT (s.FTRP bp) (PACK (sizeSub csize asize) 0)
  else
    let s := s.PUT (HDRP bp) (PACK csize 1)
    s.PUT (s.FTRP bp) (PACK csize 1)

/-- The block size for a request. -/
def adjust (size : ℕ) : ℕ :=
  if size ≤ DSIZE then 2 * DSIZE
  else DSIZE * ((size + DSIZE + (DSIZE - 1)) % 2 ^ 64 / DSIZE)

/-- The call of `mm_init` in front of the other functions. -/
def ready (A : Arena) (s : Heap) : Heap := if s.heap_listp = 0 then (mmInit A s).2 else s

/-- The pointer that is returned, with zero for `NULL`. -/
def mmMalloc (A : Arena) (fuel size : ℕ) (s : Heap) : Option (ℕ × Heap) := do
  let s := ready A s
  if size = 0 then return (0, s)
  let asize := adjust size
  match ← findFit fuel s asize with
  | some bp => return (bp, place s bp asize)
  | none =>
    let extendsize := max asize CHUNKSIZE
    match extendHeap A (extendsize / WSIZE) s with
    | none => return (0, s)
    | some (bp, s) => return (bp, place s bp asize)

def mmFree (A : Arena) (bp : ℕ) (s : Heap) : Heap :=
  if bp = 0 then s
  else
    let size := s.GET_SIZE (HDRP bp)
    let s := ready A s
    let s := s.PUT (HDRP bp) (PACK size 0)
    let s := s.PUT (s.FTRP bp) (PACK size 0)
    (coalesce s bp).2

def memcpy (dst src n : ℕ) (s : Heap) : Heap := { s with mem := s.mem.copy dst src n }

def mmRealloc (A : Arena) (fuel ptr size : ℕ) (s : Heap) : Option (ℕ × Heap) := do
  if size = 0 then return (0, mmFree A ptr s)
  if ptr = 0 then mmMalloc A fuel size s
  else
    let (newptr, s) ← mmMalloc A fuel size s
    if newptr = 0 then return (0, s)
    let oldsize := s.GET_SIZE (HDRP ptr)
    let oldsize := if size < oldsize then size else oldsize
    let s := memcpy newptr ptr oldsize s
    return (newptr, mmFree A ptr s)

/-- What `checkheap` prints. -/
inductive Report
  | heap (p : ℕ)
  | badPrologue
  | notAligned (p : ℕ)
  | mismatch
  | eol (p : ℕ)
  | badEpilogue
  deriving DecidableEq, Repr

def checkblock (s : Heap) (bp : ℕ) : List Report :=
  (if bp % 8 ≠ 0 then [.notAligned bp] else []) ++
    if s.GET (HDRP bp) ≠ s.GET (s.FTRP bp) then [.mismatch] else []

/-- The loop of `checkheap`, which shows each block and checks it, and the block that ends it. -/
def checkLoop (s : Heap) (print : ℕ → Option (List Report)) : ℕ → ℕ → Option (List Report × ℕ)
  | 0, _ => none
  | fuel + 1, bp => do
    if s.GET_SIZE (HDRP bp) > 0 then
      let shown ← print bp
      let (rest, bp') ← checkLoop s print fuel (s.NEXT_BLKP bp)
      return (shown ++ checkblock s bp ++ rest, bp')
    else return ([], bp)

/-- `checkheap`, with what it prints for a block. -/
def checkheapWith (s : Heap) (fuel : ℕ) (print : ℕ → Option (List Report)) :
    Option (List Report) := do
  let prologue := if s.GET_SIZE (HDRP s.heap_listp) ≠ DSIZE ∨ s.GET_ALLOC (HDRP s.heap_listp) = 0
    then [.badPrologue] else []
  let (blocks, bp) ← checkLoop s print fuel s.heap_listp
  let last ← print bp
  let epilogue := if s.GET_SIZE (HDRP bp) ≠ 0 ∨ s.GET_ALLOC (HDRP bp) = 0
    then [.badEpilogue] else []
  return prologue ++ checkblock s s.heap_listp ++ blocks ++ last ++ epilogue

/-- A block is shown behind a check that shows none. -/
def printblock (s : Heap) (fuel bp : ℕ) : Option (List Report) := do
  let checked ← checkheapWith s fuel fun _ => some []
  return checked ++ if s.GET_SIZE (HDRP bp) = 0 then [.eol bp] else []

def checkheap (s : Heap) (fuel : ℕ) (verbose : Bool) : Option (List Report) :=
  if verbose then do
    let shown ← checkheapWith s fuel (printblock s fuel)
    return .heap s.heap_listp :: shown
  else checkheapWith s fuel fun _ => some []

end Somenote.Malloc
