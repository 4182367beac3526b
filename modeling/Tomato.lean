import Tomato.Lib.Blocks
import Tomato.Lib.Ranges
import Tomato.Lib.Forest
import Tomato.Lib.RbTree.LinkedTree
import Tomato.Sync.Rwlock
import Tomato.Format.Malformed
import Tomato.Format.Printf
import Tomato.Thread.ParkingRun
import Tomato.Thread.Yield
import Tomato.Mem.Phys.Canonical
import Tomato.Mem.Phys.DoubleFree
import Tomato.Mem.Phys.Exact
import Tomato.Mem.Phys.AddTiles
import Tomato.Mem.Phys.ConcurrentRun
import Tomato.Boot.DirectMapBounds
import Tomato.Mem.Alloc.Run
import Tomato.Mem.Vmar.Run
import Tomato.Mem.Virt.After
import Tomato.Boot.Returns
import Tomato.Mem.Vmar.UnmapRun
import Tomato.Mem.Vmar.PagesRun
import Tomato.Libc.Memmove
import Tomato.Rbtree.FirstFit
import Tomato.Format.Roundtrip
import Tomato.Mem.Vmar.Dump
import Tomato.Mem.Vmar.FaultRun
import Tomato.Mem.Vmar.LockRun
import Tomato.Mem.Vmar.Lifetime
import Tomato.Mem.Vmar.Failure
import Tomato.Mem.Stack
import Tomato.Mem.Virt.WalkersRun
import Tomato.Mem.Vmar.StillHeld
import Tomato.Thread.Handles
import Tomato.Thread.Transitions
import Tomato.Mem.Vmar.VirtRun
import Tomato.Boot.Protection
import Tomato.Boot.BitmapCover
import Tomato.Mem.Vmar.CoresProgress
import Tomato.Lib.ByteLinks
import Tomato.Mem.Alloc.Bytes
import Tomato.Mem.Alloc.BytesCalls
import Tomato.Mem.Alloc.BytesRun
