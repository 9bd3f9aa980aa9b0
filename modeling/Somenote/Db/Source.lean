import Mathlib.Data.Fin.Basic
import Mathlib.Data.Int.Notation
import Somenote.Db.Calls

/-! # The database module

The functions of `db.c`, one definition each, in the order of the source. The counters
of the handle and `errno` are written and never read, and are left out; `nhash` and
`hashoff` keep the values that `db_open` gives them. The two list walks and the scan
take a bound on their rounds and spin when it is used up.
-/

namespace Somenote.Db

open Decimal

def SEP : Byte := 58
def SPACE : Byte := 32
def NEWLINE : Byte := 10

abbrev idxlenSz : ℕ := 4
abbrev ptrSz : ℕ := 7
abbrev ptrMax : ℕ := 99999
abbrev nhashDef : ℕ := 137
abbrev freeOff : ℕ := 0
abbrev hashOff : ℕ := ptrSz
abbrev idxlenMin : ℕ := 6
abbrev idxlenMax : ℕ := 1024
abbrev datlenMin : ℕ := 2
abbrev datlenMax : ℕ := 1024

namespace Flag

abbrev dbInsert : ℤ := 1
abbrev dbReplace : ℤ := 2
abbrev dbStore : ℤ := 3

end Flag

/-- The calls of `err_dump` and `err_quit`, named after the function and the test. -/
inductive Err
  | openLock | openFstat | openWrite | openUnLock
  | fetchUnLock
  | findWritewLock | findReadwLock
  | readptrLseek | readptrRead
  | readidxLseek | readidxReadv | readidxIdxlen | readidxRead | readidxNewline
  | readidxSep1 | readidxSep2 | readidxSep3 | readidxDatoff | readidxDatlen
  | readdatLseek | readdatRead | readdatNewline
  | deleteUnLock
  | dodeleteLock | dodeleteUnLock
  | writedatLock | writedatLseek | writedatWritev | writedatUnLock
  | writeidxPtr | writeidxLen | writeidxLock | writeidxLseek | writeidxWritev | writeidxUnLock
  | writeptrPtr | writeptrLseek | writeptrWrite
  | storeDatlen | storeUnLock
  | findfreeLock | findfreeUnLock
  | rewindLseek
  | nextrecLock | nextrecUnLock
  deriving DecidableEq, Repr

abbrev DbProg := Prog Call Reply Err

/-- Issue a call; the reply `-1` is an error exit. -/
def orDump (c : Call) (e : Err) : DbProg c.Val :=
  .call c fun
    | some v => .ret v
    | none => .dump e

/-- `if(p) err_dump(...)` -/
def dumpIf (p : Prop) [Decidable p] (e : Err) : DbProg Unit :=
  if p then .dump e else .ret ()

/-- `if(whence == SEEK_END) ...` -/
def onEnd (whence : Whence) (m : DbProg Unit) : DbProg Unit :=
  if whence = .fin then m else .ret ()

/-- The handle, less its descriptors. The buffers hold the C string they start with. -/
structure DB where
  idxbuf : List Byte
  datbuf : List Byte
  idxoff : ℕ
  idxlen : ℕ
  datoff : ℕ
  datlen : ℕ
  ptrval : ℤ
  ptroff : ℤ
  chainoff : ℕ
  deriving DecidableEq, Repr

def dbAlloc : DB := ⟨[], [], 0, 0, 0, 0, 0, 0, 0⟩

/-- The C string at the start of a buffer. -/
def cstr (b : List Byte) : List Byte := b.takeWhile (· ≠ 0)

/-- `strchr`, as the text before and after the first `c`. -/
def strchr (s : List Byte) (c : Byte) : Option (List Byte × List Byte) :=
  if c ∈ s then some (s.takeWhile (· ≠ c), (s.dropWhile (· ≠ c)).tail) else none

def dbRewind (db : DB) : DbProg DB := do
  let idxoff ← orDump (.lseek .idx ((nhashDef + 1) * ptrSz + 1) .set) .rewindLseek
  pure { db with idxoff }

/-- The 138 pointers and the newline that a new index file starts with. -/
def initImage : List Byte :=
  (List.replicate (nhashDef + 1) (field ptrSz 0)).flatten ++ [NEWLINE]

/-- `_db_free` closes the descriptors that are not -1. -/
def dbFree (idxfd datfd : Option Unit) : DbProg Unit := do
  let _ ← (if idxfd = none then .ret none else .call (.close .idx) .ret : DbProg (Option Unit))
  let _ ← (if datfd = none then .ret none else .call (.close .dat) .ret : DbProg (Option Unit))
  pure ()

def dbClose : DbProg Unit := dbFree (some ()) (some ())

/-- The part of `db_open` that writes the initial image into an empty index file. -/
def initIndex : DbProg Unit := do
  orDump (.setlkw .idx .wr 0 0) .openLock
  let size ← orDump (.fstat .idx) .openFstat
  (if size = 0 then do
    let n ← orDump (.write .idx initImage) .openWrite
    dumpIf (n ≠ initImage.length) .openWrite
  else pure () : DbProg Unit)
  orDump (.unlck .idx 0 0) .openUnLock

def dbOpen (oflag : OFlag) : DbProg (Option DB) := do
  let idxfd ← .call (.openFd .idx oflag) .ret
  let datfd ← .call (.openFd .dat oflag) .ret
  (if idxfd = none ∨ datfd = none then do
    dbFree idxfd datfd
    pure none
  else do
    (if oflag.creat ∧ oflag.trunc then initIndex else pure () : DbProg Unit)
    let db ← dbRewind dbAlloc
    pure (some db) : DbProg (Option DB))

/-- The sum over the key of each `char`, which is signed, times its position from 1. -/
def hashSum : List Byte → ℕ → BitVec 64 → BitVec 64
  | [], _, hval => hval
  | c :: key, i, hval => hashSum key (i + 1) (hval + BitVec.ofInt 64 (c.toInt8.toInt * i))

def dbHash (key : List Byte) : Fin nhashDef := Fin.ofNat nhashDef (hashSum key 1 0).toNat

def dbReadptr (offset : ℤ) : DbProg ℤ := do
  let _ ← orDump (.lseek .idx offset .set) .readptrLseek
  let asciiptr ← orDump (.read .idx ptrSz) .readptrRead
  dumpIf (asciiptr.length ≠ ptrSz) .readptrRead
  pure (atol asciiptr)

/-- The part of `_db_readidx` that takes apart the text of the record it has read. -/
def dbParseidx (db : DB) (buf : List Byte) : DbProg DB := do
  dumpIf (buf.getLast? ≠ some NEWLINE) .readidxNewline
  match strchr (cstr buf.dropLast) SEP with
  | none => .dump .readidxSep1
  | some (key, ptr1) =>
    match strchr ptr1 SEP with
    | none => .dump .readidxSep2
    | some (off, ptr2) =>
      dumpIf (strchr ptr2 SEP ≠ none) .readidxSep3
      dumpIf (atol off < 0) .readidxDatoff
      -- `datlen` is unsigned: a negative value is larger than `DATLEN_MAX`
      dumpIf (atol ptr2 ≤ 0 ∨ datlenMax < atol ptr2) .readidxDatlen
      pure { db with idxbuf := key, datoff := (atol off).toNat, datlen := (atol ptr2).toNat }

/-- `_db_readidx`; an offset of zero reads at the current position. -/
def dbReadidx (db : DB) (offset : ℤ) : DbProg (ℤ × DB) := do
  let idxoff ← orDump (.lseek .idx offset (if offset = 0 then .cur else .set)) .readidxLseek
  let iov ← orDump (.read .idx (ptrSz + idxlenSz)) .readidxReadv
  if iov.length ≠ ptrSz + idxlenSz then
    if iov.length = 0 ∧ offset = 0 then
      pure (-1, { db with idxoff })
    else
      .dump .readidxReadv
  else
    let ptrval := atol (iov.take ptrSz)
    let idxlen := atol (iov.drop ptrSz)
    dumpIf (idxlen < idxlenMin ∨ idxlenMax < idxlen) .readidxIdxlen
    let buf ← orDump (.read .idx idxlen.toNat) .readidxRead
    dumpIf (buf.length ≠ idxlen.toNat) .readidxRead
    let db ← dbParseidx { db with idxoff, ptrval, idxlen := idxlen.toNat } buf
    pure (ptrval, db)

def dbReaddat (db : DB) : DbProg (List Byte × DB) := do
  let _ ← orDump (.lseek .dat db.datoff .set) .readdatLseek
  let buf ← orDump (.read .dat db.datlen) .readdatRead
  dumpIf (buf.length ≠ db.datlen) .readdatRead
  dumpIf (buf.getLast? ≠ some NEWLINE) .readdatNewline
  let datbuf := cstr buf.dropLast
  pure (datbuf, { db with datbuf })

/-- The search loop of `_db_find_and_lock`, from the record at `offset`. -/
def findLoop (key : List Byte) : ℕ → DB → ℤ → DbProg (ℤ × DB)
  | 0, _, _ => .spin
  | fuel + 1, db, offset =>
    if offset ≠ 0 then do
      let (nextoffset, db) ← dbReadidx db offset
      if db.idxbuf = key then pure (offset, db)
      else findLoop key fuel { db with ptroff := offset } nextoffset
    else pure (offset, db)

def dbFindAndLock (fuel : ℕ) (db : DB) (key : List Byte) (writelock : Bool) :
    DbProg (ℤ × DB) := do
  let chainoff := (dbHash key).val * ptrSz + hashOff
  let db := { db with chainoff, ptroff := chainoff }
  orDump (.setlkw .idx (if writelock then .wr else .rd) db.chainoff 1)
    (if writelock then .findWritewLock else .findReadwLock)
  let offset ← dbReadptr db.ptroff
  let (offset, db) ← findLoop key fuel db offset
  pure (if offset = 0 then -1 else 0, db)

def dbFetch (fuel : ℕ) (db : DB) (key : List Byte) : DbProg (Option (List Byte) × DB) := do
  let (rc, db) ← dbFindAndLock fuel db key false
  let (ptr, db) ← (
    if rc < 0 then pure (none, db)
    else do
      let (dat, db) ← dbReaddat db
      pure (some dat, db) : DbProg (Option (List Byte) × DB))
  orDump (.unlck .idx db.chainoff 1) .fetchUnLock
  pure (ptr, db)

def dbWritedat (db : DB) (data : List Byte) (offset : ℕ) (whence : Whence) : DbProg DB := do
  onEnd whence (orDump (.setlkw .dat .wr 0 0) .writedatLock)
  let datoff ← orDump (.lseek .dat offset whence) .writedatLseek
  let datlen := data.length + 1
  let n ← orDump (.write .dat (data ++ [NEWLINE])) .writedatWritev
  dumpIf (n ≠ datlen) .writedatWritev
  onEnd whence (orDump (.unlck .dat 0 0) .writedatUnLock)
  pure { db with datoff, datlen }

/-- The text that `_db_writeidx` formats into `idxbuf`. -/
def idxText (key : List Byte) (datoff datlen : ℕ) : List Byte :=
  key ++ [SEP] ++ dec datoff ++ [SEP] ++ dec datlen ++ [NEWLINE]

/-- The range that an appending `_db_writeidx` locks: all index records. -/
abbrev idxStart : ℕ := (nhashDef + 1) * ptrSz + 1

def dbWriteidx (db : DB) (key : List Byte) (offset : ℕ) (whence : Whence) (ptrval : ℤ) :
    DbProg DB := do
  dumpIf (ptrval < 0 ∨ ptrMax < ptrval) .writeidxPtr
  let idxbuf := idxText key db.datoff db.datlen
  let len := idxbuf.length
  dumpIf (len < idxlenMin ∨ idxlenMax < len) .writeidxLen
  let asciiptrlen := field ptrSz ptrval.toNat ++ field idxlenSz len
  onEnd whence (orDump (.setlkw .idx .wr idxStart 0) .writeidxLock)
  let idxoff ← orDump (.lseek .idx offset whence) .writeidxLseek
  let n ← orDump (.write .idx (asciiptrlen.take (ptrSz + idxlenSz) ++ idxbuf)) .writeidxWritev
  dumpIf (n ≠ ptrSz + idxlenSz + len) .writeidxWritev
  onEnd whence (orDump (.unlck .idx idxStart 0) .writeidxUnLock)
  pure { db with ptrval, idxbuf, idxoff }

def dbWriteptr (offset : ℤ) (ptrval : ℤ) : DbProg Unit := do
  dumpIf (ptrval < 0 ∨ ptrMax < ptrval) .writeptrPtr
  let _ ← orDump (.lseek .idx offset .set) .writeptrLseek
  let n ← orDump (.write .idx ((field ptrSz ptrval.toNat).take ptrSz)) .writeptrWrite
  dumpIf (n ≠ ptrSz) .writeptrWrite

/-- `_db_dodelete`; the text that blanks the key is read before `idxbuf` is formatted. -/
def dbDodelete (db : DB) : DbProg DB := do
  let db := { db with datbuf := List.replicate (db.datlen - 1) SPACE,
                      idxbuf := List.replicate db.idxbuf.length SPACE }
  orDump (.setlkw .idx .wr freeOff 1) .dodeleteLock
  let db ← dbWritedat db db.datbuf db.datoff .set
  let freeptr ← dbReadptr freeOff
  let saveptr := db.ptrval
  let db ← dbWriteidx db db.idxbuf db.idxoff .set freeptr
  dbWriteptr freeOff db.idxoff
  dbWriteptr db.ptroff saveptr
  orDump (.unlck .idx freeOff 1) .dodeleteUnLock
  pure db

def dbDelete (fuel : ℕ) (db : DB) (key : List Byte) : DbProg (ℤ × DB) := do
  let (found, db) ← dbFindAndLock fuel db key true
  let (rc, db) ← (
    if found = 0 then do
      let db ← dbDodelete db
      pure (0, db)
    else pure (-1, db) : DbProg (ℤ × DB))
  orDump (.unlck .idx db.chainoff 1) .deleteUnLock
  pure (rc, db)

/-- The search loop of `_db_findfree`, with the offset of the pointer that led to `offset`. -/
def findfreeLoop (keylen datlen : ℕ) : ℕ → DB → ℤ → ℤ → DbProg (ℤ × ℤ × DB)
  | 0, _, _, _ => .spin
  | fuel + 1, db, saveoffset, offset =>
    if offset ≠ 0 then do
      let (nextoffset, db) ← dbReadidx db offset
      if db.idxbuf.length = keylen ∧ db.datlen = datlen then pure (saveoffset, offset, db)
      else findfreeLoop keylen datlen fuel db offset nextoffset
    else pure (saveoffset, offset, db)

def dbFindfree (fuel : ℕ) (db : DB) (keylen datlen : ℕ) : DbProg (ℤ × DB) := do
  orDump (.setlkw .idx .wr freeOff 1) .findfreeLock
  let offset ← dbReadptr freeOff
  let (saveoffset, offset, db) ← findfreeLoop keylen datlen fuel db freeOff offset
  let rc ← (
    if offset = 0 then pure (-1)
    else do
      dbWriteptr saveoffset db.ptrval
      pure 0 : DbProg ℤ)
  orDump (.unlck .idx freeOff 1) .findfreeUnLock
  pure (rc, db)

/-- The three lines with which both appending branches of `db_store` end. -/
def storeAppend (db : DB) (key data : List Byte) (ptrval : ℤ) : DbProg DB := do
  let db ← dbWritedat db data 0 .fin
  let db ← dbWriteidx db key 0 .fin ptrval
  dbWriteptr db.chainoff db.idxoff
  pure db

def storeReuse (db : DB) (key data : List Byte) (ptrval : ℤ) : DbProg DB := do
  let db ← dbWritedat db data db.datoff .set
  let db ← dbWriteidx db key db.idxoff .set ptrval
  dbWriteptr db.chainoff db.idxoff
  pure db

/-- The branch of `db_store` for a key that is absent. -/
def storeAbsent (fuel : ℕ) (db : DB) (key data : List Byte) : DbProg DB := do
  let ptrval ← dbReadptr db.chainoff
  let (rc, db) ← dbFindfree fuel db key.length (data.length + 1)
  if rc < 0 then storeAppend db key data ptrval
  else storeReuse db key data ptrval

/-- The branch of `db_store` that replaces the data of a key. -/
def storePresent (db : DB) (key data : List Byte) : DbProg DB := do
  if data.length + 1 ≠ db.datlen then
    let db ← dbDodelete db
    let ptrval ← dbReadptr db.chainoff
    storeAppend db key data ptrval
  else dbWritedat db data db.datoff .set

def dbStore (fuel : ℕ) (db : DB) (key data : List Byte) (flag : ℤ) : DbProg (ℤ × DB) := do
  if flag ≠ Flag.dbInsert ∧ flag ≠ Flag.dbReplace ∧ flag ≠ Flag.dbStore then
    pure (-1, db)
  else
    let datlen := data.length + 1
    dumpIf (datlen < datlenMin ∨ datlenMax < datlen) .storeDatlen
    let (found, db) ← dbFindAndLock fuel db key true
    let (rc, db) ← (
      if found < 0 then
        if flag = Flag.dbReplace then pure (-1, db)
        else do
          let db ← storeAbsent fuel db key data
          pure (0, db)
      else
        if flag = Flag.dbInsert then pure (1, db)
        else do
          let db ← storePresent db key data
          pure (0, db) : DbProg (ℤ × DB))
    orDump (.unlck .idx db.chainoff 1) .storeUnLock
    pure (rc, db)

/-- The loop of `db_nextrec` over deleted records; false at the end of the index file. -/
def nextrecLoop : ℕ → DB → DbProg (Bool × DB)
  | 0, _ => .spin
  | fuel + 1, db => do
    let (i, db) ← dbReadidx db 0
    if i < 0 then pure (false, db)
    else if db.idxbuf.all (· == SPACE) then nextrecLoop fuel db
    else pure (true, db)

/-- `db_nextrec` with a buffer for the key: the key and the data it returns. -/
def dbNextrec (fuel : ℕ) (db : DB) : DbProg (Option (List Byte × List Byte) × DB) := do
  orDump (.setlkw .idx .rd freeOff 1) .nextrecLock
  let (more, db) ← nextrecLoop fuel db
  let (ptr, db) ← (
    if more then do
      let (dat, db) ← dbReaddat db
      pure (some (db.idxbuf, dat), db)
    else pure (none, db) : DbProg (Option (List Byte × List Byte) × DB))
  orDump (.unlck .idx freeOff 1) .nextrecUnLock
  pure (ptr, db)

end Somenote.Db
