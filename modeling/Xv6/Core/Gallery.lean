import Xv6.Core.Param
import Xv6.Lib.Loop

/-!
# The Picture Viewer

`user/gallery.c`: it loads a bitmap, shows it, and turns, flips, zooms and moves it on the
keys it gets from the kernel, until `x`.

The process has its memory, of which only what `sbrk` gave it is used here, byte by byte; a
pixel is three bytes. An address is mapped up to the end of the page in which the process
ends. A load or store beyond that is a page fault, which ends the process, and so does
`exit(0)`. New pages are zero, the rest of the last page is as it was left.

What the file system answers is an input. An `Io` says, for one call of `imgread`, whether
the file can be opened, what each `read` finds at the offset of the descriptor or that it
fails, and whether there is memory for each `sbrk`. Descriptors are counted: `open` also fails
when `NOFILE` are in use. An `sbrk` that fails gives the pointer `-1`, which is not checked.

`width` and `height` are `int` and are read from the header as they stand there. The arguments
of `sbrk` and `read` are computed from them before anything is known about them, so they are
taken as the machine takes them. Products of coordinates elsewhere are not taken modulo
anything: they stay below `width * height`.
-/

namespace Xv6

structure Pixel where
  b : UInt8
  g : UInt8
  r : UInt8
deriving DecidableEq

/-- The display: what it shows, and the calls of `setpixel` so far. -/
structure Screen where
  shown : Int × Int → Pixel
  calls : List ((Int × Int) × Pixel)

/-- The state of the process, and `listening` and the display in the kernel. -/
structure Gallery where
  /-- The bytes of the process. -/
  mem : Nat → UInt8
  /-- `p->sz`. -/
  sz : Nat
  /-- Where the stack ends and what `sbrk` gives begins. -/
  heap : Nat
  /-- How many descriptors are open. -/
  nfd : Nat
  /-- The offset in the file that `imgread` has opened. -/
  off : Nat
  /-- The fourteen bytes of the header `fh`. -/
  fh : List UInt8
  /-- The forty bytes of the header `ih`. -/
  ih : List UInt8
  width : Int
  height : Int
  /-- `img.pixels`. -/
  pixels : Nat
  pa : Nat
  pb : Nat
  a : Bool
  xpos : Int32
  ypos : Int32
  zoom : Int32
  screen : Screen
  listening : Int

namespace Gallery

/-- The ways out of a function that does not return. After `wild` a `read` has stored below the
    heap, over the program or its stack, and what the process does from there on is not said. -/
inductive Stop
  | exit
  | fault
  | wild

/-- What the kernel answers to one call of `imgread`. -/
structure Io where
  /-- The file can be opened, if there is a descriptor. -/
  found : Bool
  /-- The bytes that each `read`, in the order of the calls, finds from an offset on. `none` is
      an error. -/
  reads : Nat → Nat → Option (List UInt8)
  /-- There is memory for the first `sbrk`. -/
  roomA : Bool
  /-- There is memory for the second `sbrk`. -/
  roomB : Bool

/-- `PGROUNDUP`. -/
def pgRoundUp (sz : Nat) : Nat := (sz + (PGSIZE - 1)) / PGSIZE * PGSIZE

/-- The pixel at an address. -/
def pixelAt (mem : Nat → UInt8) (addr : Nat) : Pixel := ⟨mem addr, mem (addr + 1), mem (addr + 2)⟩

def setPixelAt (mem : Nat → UInt8) (addr : Nat) (p : Pixel) : Nat → UInt8 := fun x =>
  if x = addr then p.b else if x = addr + 1 then p.g else if x = addr + 2 then p.r else mem x

def load (g : Gallery) (addr : Nat) : Except Stop Pixel :=
  if addr + 3 ≤ pgRoundUp g.sz then .ok (pixelAt g.mem addr) else .error .fault

def store (g : Gallery) (addr : Nat) (p : Pixel) : Except Stop Gallery :=
  if addr + 3 ≤ pgRoundUp g.sz then .ok { g with mem := setPixelAt g.mem addr p }
  else .error .fault

/-- `sbrk(n)`. A size that would be negative is left as it was, by `uvmdealloc`. One that is less
    than before gives pages back, and without its stack the process does not get far. -/
def sbrk (g : Gallery) (n : Int) (room : Bool) : Except Stop (Nat × Gallery) :=
  if room = false then .ok (2 ^ 64 - 1, g)
  else if 0 ≤ n then
    .ok (g.sz, { g with
      sz := g.sz + n.toNat
      mem := fun x => if pgRoundUp g.sz ≤ x ∧ x < pgRoundUp (g.sz + n.toNat) then 0 else g.mem x })
  else if g.sz < -n then .ok (g.sz, g)
  else if pgRoundUp (g.sz + n).toNat < g.heap then .error .fault
  else .ok (g.sz, { g with sz := (g.sz + n).toNat })

/-- How many bytes `readi` looks for. It takes the number as a `uint`, and gives nothing when the
    sum with the offset wraps. -/
def count (off : Nat) (n : Int) : Nat :=
  if off + (n % 4294967296).toNat < 2 ^ 32 then (n % 4294967296).toNat else 0

/-- A `read` of `n` bytes to `dst`, which fails where `dst` is not mapped. -/
def read (g : Gallery) (dst n : Int) (r : Nat → Option (List UInt8)) : Except Stop Gallery :=
  match r g.off with
  | none => .error .exit
  | some bs =>
    let bs := bs.take (count g.off n)
    if bs = [] then .ok g
    else if 0 ≤ dst ∧ dst < g.heap then .error .wild
    else if 0 ≤ dst ∧ dst + bs.length ≤ pgRoundUp g.sz then
      .ok { g with
        off := g.off + bs.length
        mem := fun x =>
          if dst ≤ x ∧ x < dst + bs.length then bs.getD (x - dst).toNat 0 else g.mem x }
    else .error .exit

/-- A `read` of `n` bytes to the local variable `discard`, which has twelve. -/
def skip (g : Gallery) (n : Int) (r : Nat → Option (List UInt8)) : Except Stop Gallery :=
  match r g.off with
  | none => .error .exit
  | some bs =>
    let bs := bs.take (count g.off n)
    if 12 < bs.length then .error .wild else .ok { g with off := g.off + bs.length }

/-- A field of `ih`, as an `int`. -/
def field (ih : List UInt8) (k : Nat) : Int :=
  ((ih.getD k 0).toNat + 256 * (ih.getD (k + 1) 0).toNat + 65536 * (ih.getD (k + 2) 0).toNat +
    16777216 * (ih.getD (k + 3) 0).toNat : Int).bmod (2 ^ 32)

/-- The two headers. Only the second is used. -/
def readHeaders (g : Gallery) (io : Io) : Except Stop Gallery :=
  match io.reads 0 0 with
  | none => .error .exit
  | some bs =>
    let fh := bs.take 14
    match io.reads 1 fh.length with
    | none => .error .exit
    | some bs =>
      let ih := bs.take 40
      .ok { g with
        off := fh.length + ih.length
        fh := fh ++ g.fh.drop fh.length
        ih := ih ++ g.ih.drop ih.length }

/-- `img.pixels + y * img.width`. With the pointer `-1` that is a small address. -/
def rowAddr (g : Gallery) (io : Io) (y : Int) : Int :=
  (if io.roomA = true then (g.pixels : Int) else -1) + 3 * (y * g.width).bmod (2 ^ 32)

/-- The rows of the picture, of which the file has the last one first, and after each of them
    `padding` bytes. -/
def readRows (g : Gallery) (io : Io) : Except Stop Gallery :=
  Loop.upto g.height.toNat (fun k g =>
    match g.read (g.rowAddr io (g.height - 1 - k)) (g.width * 3) (io.reads (2 + 2 * k)) with
    | .error e => .error e
    | .ok g => g.skip (g.width.tmod 4) (io.reads (3 + 2 * k))) g

/-- `img.width * img.height * sizeof(struct Pixel)`, as the `int` that `sbrk` takes. -/
def bytes (g : Gallery) : Int := (g.width * g.height * 3).bmod (2 ^ 32)

/-- The two buffers. `a` is left as it is. -/
def allocate (g : Gallery) (io : Io) : Except Stop Gallery :=
  match g.sbrk g.bytes io.roomA with
  | .error e => .error e
  | .ok (pa, g) => match g.sbrk g.bytes io.roomB with
    | .error e => .error e
    | .ok (pb, g) => .ok { g with pa := pa, pb := pb, pixels := pa }

/-- `imgread`, whose `open` nobody closes. -/
def imgread (g : Gallery) (io : Io) : Except Stop Gallery :=
  if io.found = true ∧ g.nfd < NOFILE then
    match readHeaders { g with nfd := g.nfd + 1 } io with
    | .error e => .error e
    | .ok g => match allocate { g with height := field g.ih 8, width := field g.ih 4 } io with
      | .error e => .error e
      | .ok g => g.readRows io
  else .error .exit

/-- `outside`. -/
def Outside (g : Gallery) (x y : Int) : Prop := x < 0 ∨ g.width ≤ x ∨ y < 0 ∨ g.height ≤ y

instance (g : Gallery) (x y : Int) : Decidable (g.Outside x y) :=
  inferInstanceAs (Decidable (_ ∨ _ ∨ _ ∨ _))

/-- The address of pixel `k` of the buffer at `p`. -/
def index (p : Nat) (k : Int) : Nat := p + 3 * k.toNat

def setPixel (g : Gallery) (x y : Int) (p : Pixel) : Except Stop Gallery :=
  if g.Outside x y then .error .exit else g.store (index g.pixels (y * g.width + x)) p

def getPixel (g : Gallery) (x y : Int) : Except Stop Pixel :=
  if g.Outside x y then .ok ⟨0, 0, 0⟩ else g.load (index g.pixels (y * g.width + x))

/-- Exchanging two pixels through `temp`. -/
def swap (g : Gallery) (x y x' y' : Int) : Except Stop Gallery :=
  match g.getPixel x y with
  | .error e => .error e
  | .ok temp => match g.getPixel x' y' with
    | .error e => .error e
    | .ok p => match g.setPixel x y p with
      | .error e => .error e
      | .ok g => g.setPixel x' y' temp

def hflip (g : Gallery) : Except Stop Gallery :=
  let mid := (g.width.tdiv 2).toNat
  Loop.upto g.height.toNat (fun y g =>
    Loop.upto mid (fun x g => g.swap x y (g.width - x - 1) y) g) g

def vflip (g : Gallery) : Except Stop Gallery :=
  let mid := (g.height.tdiv 2).toNat
  Loop.upto g.width.toNat (fun x g =>
    Loop.upto mid (fun y g => g.swap x y x (g.height - y - 1)) g) g

/-- `new_pixels` in `rrotate`. -/
def newPixels (g : Gallery) : Nat := if g.a then g.pb else g.pa

/-- The loops of `rrotate`. -/
def rcopy (g : Gallery) (new : Nat) : Except Stop Gallery :=
  Loop.upto g.width.toNat (fun i g =>
    Loop.upto g.height.toNat (fun j g =>
      match g.getPixel i j with
      | .error e => .error e
      | .ok p => g.store (index new (i * g.height + g.height - j + 1)) p) g) g

def rrotate (g : Gallery) : Except Stop Gallery :=
  let new := g.newPixels
  match rcopy { g with a := !g.a } new with
  | .error e => .error e
  | .ok g => .ok { g with pixels := new, width := g.height, height := g.width }

def lrotate (g : Gallery) : Except Stop Gallery := Loop.upto 3 (fun _ g => g.rrotate) g

/-- The system call `setpixel`, which exits when the pixel is not on the screen. -/
def setpixel (g : Gallery) (x y : Int) (p : Pixel) : Except Stop Gallery :=
  if x < 0 ∨ y < 0 ∨ 320 ≤ x ∨ 200 ≤ y then .error .exit
  else .ok { g with screen := ⟨Function.update g.screen.shown (x, y) p,
    g.screen.calls ++ [((x, y), p)]⟩ }

/-- `n / zoom` as the machine divides: by zero it is `-1`. -/
def divZoom (n : Int32) (zoom : Int32) : Int := if zoom = 0 then -1 else (n / zoom).toInt

/-- One pixel of the picture, as a square of the screen. -/
def drawSquare (g : Gallery) (i j : Nat) (p : Pixel) : Except Stop Gallery :=
  let zoom := g.zoom.toInt
  Loop.upto zoom.toNat (fun k g =>
    Loop.upto zoom.toNat (fun l g => g.setpixel (i * zoom + k) (j * zoom + l) p) g) g

def draw (g : Gallery) : Except Stop Gallery :=
  let xmax := divZoom 320 g.zoom
  let ymax := divZoom 200 g.zoom
  Loop.upto xmax.toNat (fun i g =>
    Loop.upto ymax.toNat (fun j g =>
      match g.getPixel (g.xpos + Int32.ofNat i).toInt (g.ypos + Int32.ofNat j).toInt with
      | .error e => .error e
      | .ok p => g.drawSquare i j p) g) g

/-- The messages that the event loop tells apart. -/
inductive Cmd
  | x | r | h | v | i | o | up | down | right | left | d | f | other
deriving DecidableEq

def Cmd.ofMsg (msg : UInt8) : Cmd :=
  if msg = 0x78 then .x
  else if msg = 0x72 then .r
  else if msg = 0x68 then .h
  else if msg = 0x76 then .v
  else if msg = 0x69 then .i
  else if msg = 0x6f then .o
  else if msg = 0x41 then .up
  else if msg = 0x42 then .down
  else if msg = 0x43 then .right
  else if msg = 0x44 then .left
  else if msg = 0x64 then .d
  else if msg = 0x66 then .f
  else .other

/-- One function, then `draw`. -/
def thenDraw : Except Stop Gallery → Except Stop Gallery
  | .error e => .error e
  | .ok g => g.draw

/-- The `switch` of `eventloop`. -/
def command (g : Gallery) (io : Io) : Cmd → Except Stop Gallery
  | .r => thenDraw (imgread { g with xpos := 0, ypos := 0, zoom := 1 } io)
  | .h => thenDraw g.hflip
  | .v => thenDraw g.vflip
  | .i => draw { g with zoom := g.zoom * 2 }
  | .o => if 1 < g.zoom then draw { g with zoom := g.zoom / 2 } else .ok g
  | .up => draw { g with ypos := g.ypos - 8 }
  | .down => draw { g with ypos := g.ypos + 8 }
  | .right => draw { g with xpos := g.xpos + 8 }
  | .left => draw { g with xpos := g.xpos - 8 }
  | .d => thenDraw g.lrotate
  | .f => thenDraw g.rrotate
  | .x => .ok g
  | .other => .ok g

/-- The process in its event loop, or `listening` as it left it. -/
inductive Proc
  | running (g : Gallery)
  | exited (listening : Int)

/-- Once round the event loop, with what `getmsg` returns. No command touches `listening`, so
    a command that does not return leaves it as it is. A process that has stored over its own
    program is taken to end there. -/
def event : Proc → UInt8 × Io → Proc
  | .exited l, _ => .exited l
  | .running g, (msg, io) =>
    if msg = 0 then .running g
    else match g.command io (Cmd.ofMsg msg) with
      | .error _ => .exited g.listening
      | .ok g => if Cmd.ofMsg msg = .x then .exited 0 else .running g

/-- `main` with one argument, up to the event loop. -/
def main (g : Gallery) (io : Io) : Proc :=
  match thenDraw (imgread g io) with
  | .error _ => .exited g.listening
  | .ok g => .running { g with listening := 1 }

end Gallery

end Xv6
