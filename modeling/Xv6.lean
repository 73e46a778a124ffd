import Xv6.Theory.Proc.Family
import Xv6.Theory.Proc.Kill
import Xv6.Theory.Fs.Cache
import Xv6.Theory.Msg
import Xv6.Theory.PipeWake
import Xv6.Theory.Gallery.Exit
import Xv6.Theory.Files.Steps
import Xv6.Theory.Bio.Lru
import Xv6.Theory.Console
import Xv6.Theory.Log.Pins
import Xv6.Theory.Virtio
import Xv6.Theory.Shared
import Xv6.Theory.Sh.Redirs
import Xv6.Theory.Morecore
import Xv6.Theory.Grep
import Xv6.Theory.Vm.Sbrk
import Xv6.Theory.Reads
import Xv6.Theory.Paths
import Xv6.Theory.Gallery.Coverage
import Xv6.Theory.Gallery.Zoom
import Xv6.Theory.Palette
import Xv6.Theory.Vm.Fork
import Xv6.Theory.Gallery.Malformed
import Xv6.Theory.Sleep
