import VeRoot.Engine.Acyclic
import VeRoot.Engine.Closed
import VeRoot.Engine.Depends
import VeRoot.Engine.Serialise
import VeRoot.Overlay.Discipline
import VeRoot.Overlay.Cleanup
import VeRoot.Overlay.Exclusion
import VeRoot.Overlay.Stack
import VeRoot.Recipe.Locate
import VeRoot.Recipe.Lookup
import VeRoot.Boot.FirstFlash
import VeRoot.Boot.Format
import VeRoot.Boot.Update
import VeRoot.Source.Fetch
import VeRoot.Source.Freeze
import VeRoot.Source.Variants
import VeRoot.Build.Keys
import VeRoot.Engine.RunOrder
import VeRoot.Build.Sources
import VeRoot.Boot.BootImage
import VeRoot.Boot.Expand
import VeRoot.Boot.Network
import VeRoot.Boot.Secure
import VeRoot.Rootfs.Customise
import VeRoot.Rootfs.FixupLibs
import VeRoot.Rootfs.Genrootfs
import VeRoot.Rootfs.Mounts
import VeRoot.Rootfs.PackageLists
import VeRoot.Rootfs.Permissions
import VeRoot.Rootfs.Reprovision
import VeRoot.Rootfs.Resolv
import VeRoot.Rootfs.Templates
import VeRoot.Source.Checkout
import VeRoot.Kconfig.Eval
import VeRoot.Kconfig.Session
import VeRoot.Kconfig.Selection
import VeRoot.Kconfig.Reload
