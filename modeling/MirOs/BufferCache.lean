import MirOs.DList
import MirOs.PprevChain

/-!
# The buffer cache

A model of `buffer_head.c`. The memory of buffer heads is partial: an object that
the slab allocator has not handed out holds nothing. What lies behind the device
drivers is a parameter, and a transfer may change the data area of the buffer it
gets and the storage. The two slab allocations of `add_buffer_head` answer what
the caller of the model supplies; both failures are panics in the source.
-/

namespace MirOs.BufferCache

set_option autoImplicit false

open MirOs.DList (Links)
open MirOs.PprevChain (Chains)

abbrev CInt := BitVec 32

inductive BufferState where
  | clean
  | dirty
  | init
  deriving DecidableEq

inductive Command where
  | read
  | write
  deriving DecidableEq

structure Buffer where
  dev : CInt
  block : CInt
  blockSize : Nat
  data : List UInt8
  state : BufferState

structure Transfer (S : Type*) where
  status : Int
  data : List UInt8
  storage : S

/-- The entries of `blkdev` that the cache reads. -/
structure BlockDevice (S : Type*) where
  blockSize : Nat
  blockTransferFunction : Option (Buffer → Nat → Command → S → Transfer S)

def bufferHeadLimit : Nat := 256
def bufferHeadHashTable : Nat := 301
def blockSizeDefault : Nat := 1024

def major (dev : CInt) : CInt := (dev.sshiftRight 8) &&& 255#32

/-- `hash_bh`: the table size is unsigned, and so is the division. -/
def hashBh (dev block : CInt) : Fin bufferHeadHashTable :=
  ⟨(dev ^^^ block).toNat % bufferHeadHashTable, Nat.mod_lt _ (by decide)⟩

inductive ListPtr (N : Type*) where
  | head
  | node (n : N)
  deriving DecidableEq

structure Cache (N S : Type*) where
  memory : N → Option Buffer
  links : Links (ListPtr N)
  hashTable : Chains (Fin bufferHeadHashTable) N
  bufferHeads : Nat
  storage : S

/-- The panics of the cache: no slab memory, or `Buffer head inconsistent`. -/
inductive Fault where
  | noMemory
  | inconsistent
  deriving DecidableEq

/-- What the slab allocator offers: an object, and the content of a data area. -/
structure Slab (N : Type*) where
  object : Option N
  area : Option (Nat → UInt8)

variable {N S : Type*} [DecidableEq N]

def Cache.setBuffer (cache : Cache N S) (bh : N) (buffer : Option Buffer) : Cache N S :=
  { cache with memory := Function.update cache.memory bh buffer }

def Cache.setState (cache : Cache N S) (bh : N) (state : BufferState) : Cache N S :=
  cache.setBuffer bh ((cache.memory bh).map fun buffer => { buffer with state := state })

/-- The allocator never offers an object that is in use. -/
def slabCacheAlloc (cache : Cache N S) (slab : Slab N) : Option N :=
  slab.object.filter fun bh => (cache.memory bh).isNone

/-- A null pointer, the error of the source, leaves the cache as it is. -/
def linkBufferHead (cache : Cache N S) (bh : N) (buffer : Buffer) : Option (Cache N S) :=
  if bufferHeadLimit ≤ cache.bufferHeads then none
  else some { cache with
    links := DList.listAddTail cache.links (.node bh) .head
    hashTable := PprevChain.addHash cache.hashTable bh (hashBh buffer.dev buffer.block)
    bufferHeads := cache.bufferHeads + 1 }

def unlinkBufferHead (cache : Cache N S) (bh : N) : Cache N S :=
  if cache.bufferHeads = 0 then cache
  else { cache with
    links := DList.listDel cache.links (.node bh)
    hashTable := PprevChain.delHash cache.hashTable bh
    bufferHeads := cache.bufferHeads - 1 }

def searchBufferHead (cache : Cache N S) (dev block : CInt) (bh : N) : Bool :=
  match cache.memory bh with
  | none => false
  | some buffer => buffer.dev == dev && buffer.block == block

/-- Neither the list nor a chain holds more nodes than the limit, so a walk that
has not ended after one node more has left them. -/
def walkFuel : Nat := bufferHeadLimit + 1

def lookupBufferHead (cache : Cache N S) (dev block : CInt) : Option N :=
  PprevChain.searchFrom cache.hashTable (searchBufferHead cache dev block) walkFuel
    (cache.hashTable.head (hashBh dev block))

variable (blkdev : CInt → BlockDevice S)

def addBufferHead (cache : Cache N S) (dev block : CInt) (slab : Slab N) :
    Except Fault (Option N × Cache N S) :=
  match slabCacheAlloc cache slab with
  | none => .error .noMemory
  | some bh =>
      let buffer : Buffer :=
        { dev := dev, block := block, blockSize := 0, data := [], state := .init }
      match linkBufferHead (cache.setBuffer bh (some buffer)) bh buffer with
      | none => .ok (none, cache.setBuffer bh none)
      | some linked =>
          let blockSize := max blockSizeDefault (blkdev (major dev)).blockSize
          match slab.area with
          | none => .error .noMemory
          | some area =>
              .ok (some bh, linked.setBuffer bh (some { buffer with
                blockSize := blockSize
                data := (List.range blockSize).map area }))

def blockDeviceTransfer (cache : Cache N S) (bh : N) (size : Nat) (cmd : Command) : Cache N S :=
  match cache.memory bh with
  | none => cache
  | some buffer =>
      match (blkdev (major buffer.dev)).blockTransferFunction with
      | none => cache
      | some transfer =>
          let done := transfer buffer size cmd cache.storage
          { cache.setBuffer bh (some { buffer with data := done.data }) with
            storage := done.storage }

/-- `list_for_each` over the list, up to the first clean buffer. -/
def getBufferHead (cache : Cache N S) : Option (ListPtr N) :=
  DList.findFrom cache.links .head
    (fun ptr => match ptr with
      | .head => false
      | .node bh => (cache.memory bh).any fun buffer => buffer.state = .clean)
    walkFuel (cache.links.next .head)

def releaseBufferHead (cache : Cache N S) (dev block : CInt) :
    Except Fault (Option N × Cache N S) :=
  if DList.listEmpty cache.links .head || cache.bufferHeads < bufferHeadLimit then
    .ok (none, cache)
  else
    match (getBufferHead cache).or (cache.links.next .head) with
    | some (.node bh) =>
        match cache.memory bh with
        | none => .ok (none, cache)
        | some buffer =>
            if buffer.dev = dev ∧ buffer.block = block then .ok (none, cache)
            else
              let flushed := if buffer.state = .dirty then
                  (blockDeviceTransfer blkdev cache bh buffer.blockSize .write).setState bh .clean
                else cache
              let unlinked := unlinkBufferHead flushed bh
              let rekeyed := { (unlinked.memory bh).getD buffer with
                dev := dev
                block := block
                state := .init }
              match linkBufferHead (unlinked.setBuffer bh (some rekeyed)) bh rekeyed with
              | none => .error .inconsistent
              | some linked => .ok (some bh, linked)
    | _ => .ok (none, cache)

/-- The two ways to a buffer after a failed lookup, the same in reads and writes. -/
def missBufferHead (cache : Cache N S) (dev block : CInt) (slab : Slab N) :
    Except Fault (Option N × Cache N S) :=
  match addBufferHead blkdev cache dev block slab with
  | .error fault => .error fault
  | .ok (some bh, cache) => .ok (some bh, cache)
  | .ok (none, cache) => releaseBufferHead blkdev cache dev block

def readBufferHead (cache : Cache N S) (dev block : CInt) (slab : Slab N) :
    Except Fault (Option N × Cache N S) :=
  match lookupBufferHead cache dev block with
  | some bh => .ok (some bh, cache)
  | none =>
      match missBufferHead blkdev cache dev block slab with
      | .error fault => .error fault
      | .ok (none, cache) => .ok (none, cache)
      | .ok (some bh, cache) =>
          let size := ((cache.memory bh).map Buffer.blockSize).getD 0
          .ok (some bh, (blockDeviceTransfer blkdev cache bh size .read).setState bh .clean)

def bread (cache : Cache N S) (dev block : CInt) (slab : Slab N) :
    Except Fault (Option N × Cache N S) :=
  readBufferHead blkdev cache dev block slab

/-- The part of `write_buffer_head` after the buffer is found; `data` is the memory
from the caller's pointer on. -/
def fillBufferHead (cache : Cache N S) (bh : N) (data : Nat → UInt8) (size : Nat) :
    Cache N S :=
  match cache.memory bh with
  | none => cache
  | some buffer =>
      let size := min buffer.blockSize size
      let filled := cache.setBuffer bh (some { buffer with
        state := .dirty
        data := (List.range size).map data ++ List.replicate (buffer.blockSize - size) 0 })
      (blockDeviceTransfer blkdev filled bh size .write).setState bh .clean

def writeBufferHead (cache : Cache N S) (dev block : CInt) (data : Nat → UInt8) (size : Nat)
    (slab : Slab N) : Except Fault (Option N × Cache N S) :=
  match lookupBufferHead cache dev block with
  | some bh => .ok (some bh, fillBufferHead blkdev cache bh data size)
  | none =>
      match missBufferHead blkdev cache dev block slab with
      | .error fault => .error fault
      | .ok (none, cache) => .ok (none, cache)
      | .ok (some bh, cache) => .ok (some bh, fillBufferHead blkdev cache bh data size)

def bwrite (cache : Cache N S) (dev block : CInt) (size : Nat) (data : Nat → UInt8)
    (slab : Slab N) : Except Fault (Option N × Cache N S) :=
  writeBufferHead blkdev cache dev block data size slab

end MirOs.BufferCache
