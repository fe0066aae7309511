import VeRoot.Unix.Lines
import Mathlib.Logic.Function.Basic

/-!
# The network configuration at boot

`config_network` of `ramdisk/bootconfig.sh` makes `wired.network` a link to the template of
the mode that `/data/network.config` or the configuration asks for; with a static address
it edits the file behind the link.  `sed -i` writes a new file in place of the link.

The branch for `static` calls `config_network_static`, and the file defines no function of
this name: its function for the mode is `config_network_static_ip`.

## Main definitions

* `NetworkDir`, `NetworkTemplates` — `etc/systemd/network`, and what a root file system has there.
* `configNetwork` — the function, with the functions it calls looked up by name.
* `effectiveMode`, `staticAddress` — what the two files ask for.
* `FollowsConfig` — the configuration that is asked for is in place.
* `followsConfig_iff` — the main result.
-/

namespace VeRoot

open Unix

/-! ## The directory -/

/-- An entry of `etc/systemd/network`. -/
inductive NetworkEntry
  | file (ls : List Text)
  | link (dest : String)

/-- The directory `etc/systemd/network`. -/
abbrev NetworkDir := String → Option NetworkEntry

namespace NetworkDir

/-- What one reads at `n`, through a link if there is one. -/
def read (d : NetworkDir) (n : String) : Option (List Text) :=
  match d n with
  | some (.file ls) => some ls
  | some (.link dest) =>
    match d dest with
    | some (.file ls) => some ls
    | _ => none
  | none => none

/-- `rm -f n` -/
def rmf (n : String) (d : NetworkDir) : NetworkDir := Function.update d n none

/-- `ln -s dest n`, which fails when there is an `n`. -/
def ln (dest n : String) (d : NetworkDir) : NetworkDir :=
  if (d n).isNone then Function.update d n (some (.link dest)) else d

/-- `sed -i` with a substitution on every line. -/
def sed (f : Text → Text) (n : String) (d : NetworkDir) : NetworkDir :=
  match d.read n with
  | some ls => Function.update d n (some (.file (ls.map f)))
  | none => d

end NetworkDir

/-- The templates of a root file system, and whatever else the directory holds. -/
structure NetworkTemplates where
  dhcpServer : List Text
  dhcp : List Text
  static : List Text
  other : NetworkDir

/-- The directory with its templates. -/
def NetworkTemplates.dir (T : NetworkTemplates) : NetworkDir
  | "wired.network.dhcp_server" => some (.file T.dhcpServer)
  | "wired.network.dhcp" => some (.file T.dhcp)
  | "wired.network.static" => some (.file T.static)
  | n => T.other n

/-! ## The functions of the script -/

/-- `ERROR_IP_ADDRESS` -/
def errorIpAddress : Text := "172.24.0.1/24".toList

/-- `s;Address=.*;Address=${ip};g` -/
def setAddress (ip : Text) : Text → Text :=
  substitute (fun t => if "Address=".toList <+: t then some [] else none) ("Address=".toList ++ ip)

/-- `config_network_dhcp_server` -/
def configNetworkDhcpServer : NetworkDir → NetworkDir :=
  .ln "wired.network.dhcp_server" "wired.network"

/-- `config_network_dhcp_client` -/
def configNetworkDhcpClient : NetworkDir → NetworkDir := .ln "wired.network.dhcp" "wired.network"

/-- `_config_network_static`, with its argument. -/
def _configNetworkStatic (ip : Text) (d : NetworkDir) : NetworkDir :=
  let ip := if ip = [] then errorIpAddress else ip
  (d.ln "wired.network.static" "wired.network").sed (setAddress ip) "wired.network"

/-- `config_network_error` -/
def configNetworkError : NetworkDir → NetworkDir := _configNetworkStatic errorIpAddress

/-- `[0-9]|[1-9][0-9]|1[0-9][0-9]|2[0-4][0-9]|25[0-5]` -/
def isOctet : Text → Bool
  | [a] => a.isDigit
  | [a, b] => a.isDigit && a != '0' && b.isDigit
  | [a, b, c] => c.isDigit &&
      (a == '1' && b.isDigit || a == '2' && ['0', '1', '2', '3', '4'].contains b ||
        a == '2' && b == '5' && ['0', '1', '2', '3', '4', '5'].contains c)
  | _ => false

/-- `[0-9]|[1-2][0-9]|3[0-2]` -/
def isPrefixLength : Text → Bool
  | [a] => a.isDigit
  | [a, b] => (a == '1' || a == '2') && b.isDigit || a == '3' && ['0', '1', '2'].contains b
  | _ => false

/-- The line is an IPv4 address with a prefix length. -/
def isAddress (l : Text) : Bool :=
  match l.splitOn '/' with
  | [a, p] => (a.splitOn '.').length == 4 && (a.splitOn '.').all isOctet && isPrefixLength p
  | _ => false

/-- The lines of `network.config` that are addresses. -/
def addressLines (config : Option Text) : List Text :=
  (config.elim [] lines).filter isAddress

/-- `config_network_static_ip`: the lines go to `_config_network_static` unquoted, so the
first one is its argument. -/
def configNetworkStaticIp (config : Option Text) : NetworkDir → NetworkDir :=
  _configNetworkStatic ((addressLines config).headD [])

/-- The functions that `bootconfig.sh` defines. -/
def shellFunctions (config : Option Text) : List (String × (NetworkDir → NetworkDir)) :=
  [("config_network_dhcp_server", configNetworkDhcpServer),
    ("config_network_dhcp_client", configNetworkDhcpClient),
    ("_config_network_static", _configNetworkStatic []),
    ("config_network_error", configNetworkError),
    ("config_network_static_ip", configNetworkStaticIp config)]

/-- Calling a function: a name that is not defined is an error, and the script goes on. -/
def call (config : Option Text) (name : String) (d : NetworkDir) : NetworkDir :=
  match (shellFunctions config).lookup name with
  | some f => f d
  | none => d

/-- `^dhcp_server$|^dhcp_client$|^static$` -/
def isMode (l : Text) : Bool :=
  l == "dhcp_server".toList || l == "dhcp_client".toList || l == "static".toList

/-- The lines of `network.config` that are modes. -/
def modeLines (content : Text) : List Text := (lines content).filter isMode

/-- `$network_mode`, where `default` is what `config.json` says. -/
def networkMode (default : Text) : Option Text → Text
  | none => default
  | some content =>
    if modeLines content = [] then "--error--".toList else ['\n'].intercalate (modeLines content)

/-- `config_network` -/
def configNetwork (default : Text) (config : Option Text) (d : NetworkDir) : NetworkDir :=
  let mode := networkMode default config
  let d := d.rmf "wired.network"
  if mode = "dhcp_server".toList then call config "config_network_dhcp_server" d
  else if mode = "dhcp_client".toList then call config "config_network_dhcp_client" d
  else if mode = "static".toList then call config "config_network_static" d
  else call config "config_network_error" d

/-! ## What is asked for -/

/-- The mode that is asked for: the one mode line of the file, or the default without a file. -/
def effectiveMode (default : Text) : Option Text → Text
  | none => default
  | some content =>
    match modeLines content with
    | [m] => m
    | _ => "--error--".toList

/-- The address that is asked for. -/
def staticAddress (config : Option Text) : Text := (addressLines config).headD errorIpAddress

/-- The configuration that is asked for is in place. -/
structure FollowsConfig (default : Text) (config : Option Text) (T : NetworkTemplates)
    (d : NetworkDir) : Prop where
  present : (d.read "wired.network").isSome
  server : effectiveMode default config = "dhcp_server".toList →
    d.read "wired.network" = some T.dhcpServer
  client : effectiveMode default config = "dhcp_client".toList →
    d.read "wired.network" = some T.dhcp
  static : effectiveMode default config = "static".toList →
    d.read "wired.network" = some (T.static.map (setAddress (staticAddress config)))
  error : ∀ content, config = some content → (modeLines content).length ≠ 1 →
    d.read "wired.network" = some (T.static.map (setAddress errorIpAddress))
  /-- The templates, and everything else, are as they were. -/
  unchanged : ∀ n, n ≠ "wired.network" → d n = T.dir n

section Network

variable {T : NetworkTemplates} {d : NetworkDir} {default : Text} {config : Option Text}
  {n dest : String} {ls : List Text} {f : Text → Text}

/-! ## Links and edits -/

theorem NetworkDir.read_ln (free : d n = none) (ne : dest ≠ n)
    (template : d dest = some (.file ls)) : (d.ln dest n).read n = some ls := by
  simp [ln, free, read, Function.update_of_ne ne, template]

theorem NetworkDir.sed_of_read (h : d.read n = some ls) :
    d.sed f n = Function.update d n (some (.file (ls.map f))) := by
  rw [sed, h]

theorem NetworkDir.read_sed (h : d.read n = some ls) : (d.sed f n).read n = some (ls.map f) := by
  rw [sed_of_read h]
  simp [read]

theorem NetworkDir.ln_of_ne {m : String} (ne : m ≠ n) : (d.ln dest n) m = d m := by
  rw [ln]
  split_ifs
  · exact Function.update_of_ne ne ..
  · rfl

theorem NetworkDir.sed_of_ne {m : String} (ne : m ≠ n) : (d.sed f n) m = d m := by
  cases h : d.read n with
  | some ls =>
    rw [sed_of_read h]
    exact Function.update_of_ne ne ..
  | none => rw [sed, h]

/-- Without the old link the templates are there. -/
theorem NetworkTemplates.rmf_dir (ne : n ≠ "wired.network") :
    T.dir.rmf "wired.network" n = T.dir n :=
  Function.update_of_ne ne ..

/-- `_config_network_static`, called when there is no link. -/
theorem read_configNetworkStatic (ip : Text) :
    (_configNetworkStatic ip (T.dir.rmf "wired.network")).read "wired.network" =
      some (T.static.map (setAddress (if ip = [] then errorIpAddress else ip))) := by
  have link : ((T.dir.rmf "wired.network").ln "wired.network.static" "wired.network").read
      "wired.network" = some T.static := by
    refine NetworkDir.read_ln (Function.update_self ..) (by decide) ?_
    exact NetworkTemplates.rmf_dir (by decide)
  exact NetworkDir.read_sed link

theorem addressLines_ne_nil {l : Text} (h : l ∈ addressLines config) : l ≠ [] := by
  rintro rfl
  have := (List.mem_filter.mp h).2
  revert this
  decide

/-- **The function that is not called** does what a static configuration asks for. -/
theorem read_configNetworkStaticIp :
    (configNetworkStaticIp config (T.dir.rmf "wired.network")).read "wired.network" =
      some (T.static.map (setAddress (staticAddress config))) := by
  rw [configNetworkStaticIp, read_configNetworkStatic, staticAddress]
  cases h : addressLines config with
  | nil => rfl
  | cons l ls =>
    have : l ≠ [] := addressLines_ne_nil (show l ∈ addressLines config by simp [h])
    simp [this]

/-! ## The mode -/

theorem networkMode_of_one {content m : Text} (h : modeLines content = [m]) :
    networkMode default (some content) = m := by
  simp [networkMode, h]

/-- No mode is made of more than one line. -/
theorem not_isMode_of_many {l m : Text} {ls : List Text} :
    isMode (['\n'].intercalate (l :: m :: ls)) = false := by
  have mem : '\n' ∈ ['\n'].intercalate (l :: m :: ls) := by simp [List.intercalate]
  by_contra h
  have h : isMode (['\n'].intercalate (l :: m :: ls)) = true := by simpa using h
  simp only [isMode, Bool.or_eq_true, beq_iff_eq] at h
  rcases h with (h | h) | h <;> rw [h] at mem <;> revert mem <;> decide

/-- Without exactly one mode line the mode is none of the three. -/
theorem not_isMode_of_ne_one {content : Text} (h : (modeLines content).length ≠ 1) :
    isMode (networkMode default (some content)) = false := by
  rw [networkMode]
  match hm : modeLines content, h with
  | [], _ => rfl
  | _ :: _ :: _, _ => exact not_isMode_of_many

/-- The mode of the script is the one that is asked for, if that is one of the three. -/
theorem networkMode_eq_iff {m : Text} (hm : isMode m = true) :
    networkMode default config = m ↔ effectiveMode default config = m := by
  cases config with
  | none => rfl
  | some content =>
    by_cases one : (modeLines content).length = 1
    · obtain ⟨l, hl⟩ := List.length_eq_one_iff.mp one
      rw [networkMode_of_one hl, effectiveMode, hl]
    · have code : isMode (networkMode default (some content)) = false := not_isMode_of_ne_one one
      have spec : isMode (effectiveMode default (some content)) = false := by
        rw [effectiveMode]
        match hl : modeLines content, one with
        | [], _ => rfl
        | _ :: _ :: _, _ => rfl
      constructor
      · rintro rfl
        simp [code] at hm
      · rintro rfl
        simp [spec] at hm

/-! ## The directory after the function -/

/-- No function of the script touches anything but the link. -/
theorem call_of_ne {name : String} (ne : n ≠ "wired.network") : call config name d n = d n := by
  have static : ∀ ip, _configNetworkStatic ip d n = d n := fun ip =>
    (NetworkDir.sed_of_ne ne).trans (NetworkDir.ln_of_ne ne)
  cases hf : (shellFunctions config).lookup name with
  | none => rw [call, hf]
  | some f =>
    rw [call, hf]
    obtain ⟨l₁, l₂, e, -⟩ := List.lookup_eq_some_iff.mp hf
    have mem : (name, f) ∈ shellFunctions config := by simp [e]
    simp only [shellFunctions, List.mem_cons, Prod.mk.injEq, List.not_mem_nil, or_false] at mem
    rcases mem with ⟨-, rfl⟩ | ⟨-, rfl⟩ | ⟨-, rfl⟩ | ⟨-, rfl⟩ | ⟨-, rfl⟩
    · exact NetworkDir.ln_of_ne ne
    · exact NetworkDir.ln_of_ne ne
    · exact static _
    · exact static _
    · exact static _

theorem configNetwork_of_ne (ne : n ≠ "wired.network") :
    configNetwork default config T.dir n = T.dir n := by
  rw [configNetwork]
  split_ifs <;> exact (call_of_ne ne).trans (NetworkTemplates.rmf_dir ne)

/-- **In the mode `static` there is no `wired.network`.** -/
theorem read_of_static (h : effectiveMode default config = "static".toList) :
    (configNetwork default config T.dir).read "wired.network" = none := by
  rw [configNetwork, (networkMode_eq_iff (by decide)).mpr h, if_neg (by decide), if_neg (by decide),
    if_pos rfl]
  have undefined : (shellFunctions config).lookup "config_network_static" = none := rfl
  simp [call, undefined, NetworkDir.read, NetworkDir.rmf]

/-- **In every other mode** `wired.network` is what is asked for. -/
theorem followsConfig_of_not_static (h : effectiveMode default config ≠ "static".toList) :
    FollowsConfig default config T (configNetwork default config T.dir) := by
  have none : (T.dir.rmf "wired.network") "wired.network" = none := Function.update_self ..
  have server : networkMode default config = "dhcp_server".toList →
      (configNetwork default config T.dir).read "wired.network" = some T.dhcpServer := by
    intro e
    rw [configNetwork, if_pos e]
    exact NetworkDir.read_ln none (by decide) (NetworkTemplates.rmf_dir (by decide))
  have client : networkMode default config = "dhcp_client".toList →
      (configNetwork default config T.dir).read "wired.network" = some T.dhcp := by
    intro e
    rw [configNetwork, if_neg (by rw [e]; decide), if_pos e]
    exact NetworkDir.read_ln none (by decide) (NetworkTemplates.rmf_dir (by decide))
  have error : isMode (networkMode default config) = false →
      (configNetwork default config T.dir).read "wired.network" =
        some (T.static.map (setAddress errorIpAddress)) := by
    intro e
    have e : ¬ ((networkMode default config = "dhcp_server".toList ∨
        networkMode default config = "dhcp_client".toList) ∨
        networkMode default config = "static".toList) := by
      simpa [isMode] using e
    rw [not_or, not_or] at e
    rw [configNetwork, if_neg e.1.1, if_neg e.1.2, if_neg e.2]
    exact read_configNetworkStatic errorIpAddress
  refine ⟨?_, fun e => server ((networkMode_eq_iff (by decide)).mpr e),
    fun e => client ((networkMode_eq_iff (by decide)).mpr e), fun e => absurd e h, ?_,
    fun n => configNetwork_of_ne⟩
  · by_cases hm : isMode (networkMode default config) = true
    · have e : (networkMode default config = "dhcp_server".toList ∨
          networkMode default config = "dhcp_client".toList) ∨
          networkMode default config = "static".toList := by
        simpa [isMode] using hm
      rcases e with (e | e) | e
      · simp [server e]
      · simp [client e]
      · exact absurd ((networkMode_eq_iff (by decide)).mp e) h
    · simp [error (by simpa using hm)]
  · rintro content rfl one
    exact error (not_isMode_of_ne_one one)

/-- **The boot-time configuration follows the files exactly if the mode that is asked for is
not `static`.** -/
theorem followsConfig_iff (default : Text) (config : Option Text) (T : NetworkTemplates) :
    FollowsConfig default config T (configNetwork default config T.dir) ↔
      effectiveMode default config ≠ "static".toList := by
  refine ⟨fun h e => ?_, followsConfig_of_not_static⟩
  have := h.present
  simp [read_of_static e] at this

end Network

/-- Three templates. -/
def someTemplates : NetworkTemplates where
  dhcpServer := ["DHCPServer=yes".toList]
  dhcp := ["DHCP=yes".toList]
  static := ["Address=192.168.0.1/24".toList]
  other _ := none

/-- **A device with a static address is left without a network file.** -/
theorem not_followsConfig_static : ¬ FollowsConfig "dhcp_client".toList
    (some "static\n10.0.0.7/8\n".toList) someTemplates
    (configNetwork "dhcp_client".toList (some "static\n10.0.0.7/8\n".toList) someTemplates.dir) := by
  intro h
  have := h.present
  revert this
  decide

end VeRoot
