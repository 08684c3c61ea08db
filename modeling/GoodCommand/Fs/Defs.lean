import GoodCommand.Library.CInt

/-! The counters of `linux/fs.h` that several threads work on at once. Each of them is changed by
the operations of `linux/atomic.h` only, one at a time. -/

namespace GoodCommand.Fs

/-- The operations of `linux/atomic.h` on an `atomic_t`, each with what it is documented to do. They
wrap around. -/
structure Atomics where
  inc : CInt → CInt
  dec : CInt → CInt
  decAndTest : CInt → CInt × Bool
  incUnlessNegative : CInt → CInt × Bool
  decUnlessPositive : CInt → CInt × Bool
  inc_eq : ∀ v, inc v = CInt.wrap (v.val + 1)
  dec_eq : ∀ v, dec v = CInt.wrap (v.val - 1)
  decAndTest_eq : ∀ v, decAndTest v = (dec v, decide ((dec v).val = 0))
  incUnlessNegative_eq : ∀ v, incUnlessNegative v = if v.val < 0 then (v, false) else (inc v, true)
  decUnlessPositive_eq : ∀ v, decUnlessPositive v = if 0 < v.val then (v, false) else (dec v, true)

def Atomics.wrapping : Atomics where
  inc v := CInt.wrap (v.val + 1)
  dec v := CInt.wrap (v.val - 1)
  decAndTest v := (CInt.wrap (v.val - 1), (CInt.wrap (v.val - 1)).val = 0)
  incUnlessNegative v := if v.val < 0 then (v, false) else (CInt.wrap (v.val + 1), true)
  decUnlessPositive v := if 0 < v.val then (v, false) else (CInt.wrap (v.val - 1), true)
  inc_eq _ := rfl
  dec_eq _ := rfl
  decAndTest_eq _ := rfl
  incUnlessNegative_eq _ := rfl
  decUnlessPositive_eq _ := rfl

inductive Errno where
  | EPERM
  | EBUSY
  | ETXTBSY
  deriving DecidableEq

structure Inode where
  i_writecount : CInt
  i_readcount : CInt
  i_dio_count : CInt
  deriving DecidableEq

structure AddressSpace where
  i_mmap_writable : CInt
  deriving DecidableEq

variable (A : Atomics)

/-! ### Writers and those that deny writing -/

/-- `atomic_inc_unless_negative(v) ? 0 : -e`; the result `none` is `0`. -/
def incOr (e : Errno) (v : CInt) : CInt × Option Errno :=
  ((A.incUnlessNegative v).1, if (A.incUnlessNegative v).2 then none else some e)

/-- `atomic_dec_unless_positive(v) ? 0 : -e` -/
def decOr (e : Errno) (v : CInt) : CInt × Option Errno :=
  ((A.decUnlessPositive v).1, if (A.decUnlessPositive v).2 then none else some e)

def getWriteAccess (inode : Inode) : Inode × Option Errno :=
  let (v, ret) := incOr A .ETXTBSY inode.i_writecount
  ({ inode with i_writecount := v }, ret)

/-- `inode` is `file_inode(file)`. -/
def denyWriteAccess (inode : Inode) : Inode × Option Errno :=
  let (v, ret) := decOr A .ETXTBSY inode.i_writecount
  ({ inode with i_writecount := v }, ret)

def putWriteAccess (inode : Inode) : Inode :=
  { inode with i_writecount := A.dec inode.i_writecount }

/-- The argument is `file_inode(file)`, and `none` where `file` is `NULL`. -/
def allowWriteAccess (file : Option Inode) : Option Inode :=
  file.map fun inode => { inode with i_writecount := A.inc inode.i_writecount }

def inodeIsOpenForWrite (inode : Inode) : Bool := 0 < inode.i_writecount.val

def mappingMapWritable (mapping : AddressSpace) : AddressSpace × Option Errno :=
  let (v, ret) := incOr A .EPERM mapping.i_mmap_writable
  ({ mapping with i_mmap_writable := v }, ret)

def mappingUnmapWritable (mapping : AddressSpace) : AddressSpace :=
  { mapping with i_mmap_writable := A.dec mapping.i_mmap_writable }

def mappingDenyWritable (mapping : AddressSpace) : AddressSpace × Option Errno :=
  let (v, ret) := decOr A .EBUSY mapping.i_mmap_writable
  ({ mapping with i_mmap_writable := v }, ret)

def mappingAllowWritable (mapping : AddressSpace) : AddressSpace :=
  { mapping with i_mmap_writable := A.inc mapping.i_mmap_writable }

def mappingWritablyMapped (mapping : AddressSpace) : Bool := 0 < mapping.i_mmap_writable.val

/-! ### Readers and direct I/O requests -/

def iReadcountInc (inode : Inode) : Inode :=
  { inode with i_readcount := A.inc inode.i_readcount }

/-- The condition of the `BUG_ON` in `i_readcount_dec(inode)`, which reads the counter on its own.
-/
def iReadcountBug (inode : Inode) : Bool := inode.i_readcount.val = 0

/-- What `i_readcount_dec(inode)` does behind the `BUG_ON`. -/
def iReadcountDec (inode : Inode) : Inode :=
  { inode with i_readcount := A.dec inode.i_readcount }

def inodeDioBegin (inode : Inode) : Inode :=
  { inode with i_dio_count := A.inc inode.i_dio_count }

/-- The condition in `inode_dio_end(inode)`, with what it does to the counter. Where it holds
`wake_up_bit` is called. -/
def inodeDioEnd (inode : Inode) : Inode × Bool :=
  let (v, last) := A.decAndTest inode.i_dio_count
  ({ inode with i_dio_count := v }, last)

end GoodCommand.Fs
