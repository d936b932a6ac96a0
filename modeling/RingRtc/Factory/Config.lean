/-
The configuration values `PeerConnectionFactory` hands to the C++ side
(`src/rust/src/webrtc/peer_connection_factory.rs`), and the checks made on the
way there.

* `RffiProxyType.fromU8`: the proxy type a `u8` names; `toU8_fromU8`: decoding
  then encoding keeps the three known codes and turns every other into `3`,
  `Unknown`, whose own code it is, so every type's code reads back;
* `CString.new`, `ProxyInfo.new`, `IceServer.new`: every text becomes a C
  string, which the code `unwrap`s or `expect`s, so a constructor panics
  exactly on an interior NUL and otherwise keeps every text
  (`ProxyInfo.new_eq_some_iff`, `IceServer.new_eq_some_iff`);
* `ProxyInfo.none`, `IceServer.none`: "no proxy" and "no server", which are
  what `new` builds from empty texts; a server without URLs is not added;
* `AudioConfig.nativeAdm`, `AudioConfig.rffi`: a file-based audio device
  module needs its two files, and a native build makes a `RingRtc` module and
  registers the observer on it; `rffi_eq_error_iff`: `rffi` fails exactly for
  missing files, with the code's message, or when the registration fails, with
  its error; `rffi_eq_ok`: otherwise the flags are copied, the file names
  handed on exactly for a file-based module, and a module handed on only by a
  native build for a `RingRtc` configuration; the default configuration
  passes outside a native build.
-/
import Mathlib.Data.String.Basic

namespace RingRtc

/-! ### Proxy types -/

/-- `RffiProxyType`, a `repr(C)` enum. -/
inductive RffiProxyType where
  | none
  | https
  | socks5
  | unknown
  deriving DecidableEq, Repr

namespace RffiProxyType

/-- The discriminant of each variant, as the C side reads it. -/
def toU8 : RffiProxyType → UInt8
  | .none => 0
  | .https => 1
  | .socks5 => 2
  | .unknown => 3

/-- `RffiProxyType::from_u8`. -/
def fromU8 (u : UInt8) : RffiProxyType :=
  match u with
  | 0 => .none
  | 1 => .https
  | 2 => .socks5
  | _ => .unknown

/-- Decoding a `u8` and encoding it again keeps `0`, `1` and `2` and turns every
other code into `3`. -/
theorem toU8_fromU8 (u : UInt8) : (fromU8 u).toU8 = if u < 3 then u else 3 := by
  obtain ⟨⟨_ | _ | _ | n, hn⟩⟩ := u
  · rfl
  · rfl
  · rfl
  · have h : ¬ (⟨⟨n + 3, hn⟩⟩ : UInt8) < 3 := fun h => by
      change n + 3 < 3 at h
      omega
    rw [if_neg h]
    rfl

/-- Every type's own code reads back as the type. -/
lemma fromU8_toU8 (p : RffiProxyType) : fromU8 p.toU8 = p := by
  cases p <;> rfl

end RffiProxyType

/-! ### C strings -/

/-- `CString::new`: the text as a C string, or `none` when it holds a NUL, the
C string terminator. -/
def CString.new (s : String) : Option String :=
  if Char.ofNat 0 ∈ s.data then none else some s

lemma CString.new_eq_some_iff {s t : String} : CString.new s = some t ↔ Char.ofNat 0 ∉ s.data ∧ t = s := by
  unfold CString.new
  split <;> simp_all [eq_comm]

/-- `ProxyInfo`. -/
structure ProxyInfo where
  proxyType : RffiProxyType
  hostname : String
  password : String
  username : String
  port : UInt16
  deriving DecidableEq, Repr

/-- `ProxyInfo::new`; `none` where a `CString::new(..).unwrap()` panics. -/
def ProxyInfo.new (proxyType : RffiProxyType) (hostname password username : String)
    (port : UInt16) : Option ProxyInfo := do
  let hostname ← CString.new hostname
  let password ← CString.new password
  let username ← CString.new username
  pure ⟨proxyType, hostname, password, username, port⟩

/-- `ProxyInfo::none`. -/
def ProxyInfo.none : ProxyInfo := ⟨.none, "", "", "", 0⟩

/-- `ProxyInfo::new` panics exactly on a NUL in one of its texts, and otherwise
keeps every field. -/
theorem ProxyInfo.new_eq_some_iff {proxyType : RffiProxyType} {hostname password username : String}
    {port : UInt16} {p : ProxyInfo} :
    ProxyInfo.new proxyType hostname password username port = some p ↔
      (Char.ofNat 0 ∉ hostname.data ∧ Char.ofNat 0 ∉ password.data ∧ Char.ofNat 0 ∉ username.data) ∧
        p = ⟨proxyType, hostname, password, username, port⟩ := by
  simp only [ProxyInfo.new, Option.bind_eq_bind, Option.bind_eq_some, CString.new_eq_some_iff]
  constructor
  · rintro ⟨_, ⟨hh, rfl⟩, _, ⟨hp, rfl⟩, _, ⟨hu, rfl⟩, h⟩
    exact ⟨⟨hh, hp, hu⟩, (Option.some.inj h).symm⟩
  · rintro ⟨⟨hh, hp, hu⟩, rfl⟩
    exact ⟨_, ⟨hh, rfl⟩, _, ⟨hp, rfl⟩, _, ⟨hu, rfl⟩, rfl⟩

/-- "No proxy" is what `ProxyInfo::new` builds from empty texts and port `0`. -/
lemma ProxyInfo.new_none : ProxyInfo.new .none "" "" "" 0 = some ProxyInfo.none := rfl

/-- `IceServer`, its texts and its URLs; `rffi` hands C the URL count as
`urls_size`. -/
structure IceServer where
  username : String
  password : String
  hostname : String
  urls : List String
  deriving DecidableEq, Repr

/-- `IceServer::new`: the URLs first, then the username, password and hostname,
each through `CString::new(..).expect(..)`; `none` where that panics. -/
def IceServer.new (username password hostname : String) (urlsIn : List String) :
    Option IceServer := do
  let urls ← urlsIn.mapM CString.new
  let username ← CString.new username
  let password ← CString.new password
  let hostname ← CString.new hostname
  pure ⟨username, password, hostname, urls⟩

/-- `IceServer::none`: no URLs, which the C++ side takes as no server at all. -/
def IceServer.none : Option IceServer := IceServer.new "" "" "" []

lemma mapM_cString_new : ∀ {urls urls' : List String},
    urls.mapM CString.new = some urls' ↔ (∀ url ∈ urls, Char.ofNat 0 ∉ url.data) ∧ urls' = urls
  | [], urls' => by
    rw [List.mapM_nil]
    simp [eq_comm]
  | url :: urls, urls' => by
    simp only [List.mapM_cons, Option.bind_eq_bind, Option.bind_eq_some, CString.new_eq_some_iff,
      mapM_cString_new, List.mem_cons, forall_eq_or_imp, Option.pure_def, Option.some.injEq]
    constructor
    · rintro ⟨_, ⟨hu, rfl⟩, _, ⟨hus, rfl⟩, rfl⟩
      exact ⟨⟨hu, hus⟩, rfl⟩
    · rintro ⟨⟨hu, hus⟩, rfl⟩
      exact ⟨_, ⟨hu, rfl⟩, _, ⟨hus, rfl⟩, rfl⟩

/-- `IceServer::new` panics exactly on a NUL in a URL or in one of its texts,
and otherwise keeps every text and every URL, in order. -/
theorem IceServer.new_eq_some_iff {username password hostname : String} {urls : List String}
    {s : IceServer} :
    IceServer.new username password hostname urls = some s ↔
      ((∀ url ∈ urls, Char.ofNat 0 ∉ url.data) ∧ Char.ofNat 0 ∉ username.data ∧
        Char.ofNat 0 ∉ password.data ∧ Char.ofNat 0 ∉ hostname.data) ∧
        s = ⟨username, password, hostname, urls⟩ := by
  simp only [IceServer.new, Option.bind_eq_bind, Option.bind_eq_some, CString.new_eq_some_iff,
    mapM_cString_new]
  constructor
  · rintro ⟨_, ⟨hurls, rfl⟩, _, ⟨hu, rfl⟩, _, ⟨hp, rfl⟩, _, ⟨hh, rfl⟩, h⟩
    exact ⟨⟨hurls, hu, hp, hh⟩, (Option.some.inj h).symm⟩
  · rintro ⟨⟨hurls, hu, hp, hh⟩, rfl⟩
    exact ⟨_, ⟨hurls, rfl⟩, _, ⟨hu, rfl⟩, _, ⟨hp, rfl⟩, _, ⟨hh, rfl⟩, rfl⟩

/-- "No server" never panics, and hands C no URL. -/
lemma IceServer.none_eq : IceServer.none = some ⟨"", "", "", []⟩ := rfl

/-! ### The audio configuration -/

/-- `RffiAudioDeviceModuleType`: `File = 1`, and `RingRtc`, the default. -/
inductive RffiAudioDeviceModuleType where
  | file
  | ringRtc
  deriving DecidableEq, Repr

/-- `FileBasedAdmConfig`. -/
structure FileBasedAdmConfig where
  inputFile : String
  outputFile : String
  deriving DecidableEq, Repr

/-- `AudioConfig`. -/
structure AudioConfig where
  audioDeviceModuleType : RffiAudioDeviceModuleType
  fileBasedAdmConfig : Option FileBasedAdmConfig
  highPassFilterEnabled : Bool
  aecEnabled : Bool
  nsEnabled : Bool
  agcEnabled : Bool
  deriving DecidableEq, Repr

/-- `impl Default for AudioConfig`. -/
def AudioConfig.default : AudioConfig := ⟨.ringRtc, none, true, true, true, true⟩

/-- The native build's audio device module as `AudioConfig::rffi` uses it, both
calls outside `src/`: `AudioDeviceModule::new()`, and
`register_audio_device_callback` of an observer on the new module; each may
fail with an error. -/
structure AudioDeviceModuleOps (Adm Observer : Type) where
  new : Except String Adm
  registerAudioDeviceCallback : Adm → Observer → Except String Adm

/-- `RffiAudioConfig` with `RffiAudioConfigWrapper.adm`: a null file pointer as
`none`, and the audio device module `adm_borrowed` points to, `none` for a null
pointer. The two callback pointers, constants of the native build, are left
out. -/
structure RffiAudioConfig (Adm : Type) where
  audioDeviceModuleType : RffiAudioDeviceModuleType
  inputFile : Option String
  outputFile : Option String
  highPassFilterEnabled : Bool
  aecEnabled : Bool
  nsEnabled : Bool
  agcEnabled : Bool
  adm : Option Adm
  deriving DecidableEq, Repr

section Rffi

variable {Adm Observer : Type} (native : Bool) (admOps : AudioDeviceModuleOps Adm Observer)
  (audioDeviceObserver : Option Observer)

/-- The `(adm_borrowed, adm_arc)` of `AudioConfig::rffi`, built only in a native
build (`native` is `cfg(all(not(feature = "sim"), feature = "native"))`) and for
a `RingRtc` module: a new module, with the observer registered on it if there
is one, a failed registration returned by `?`; a failed creation is only logged
and leaves no module. -/
def AudioConfig.nativeAdm (c : AudioConfig) : Except String (Option Adm) :=
  if native ∧ c.audioDeviceModuleType = .ringRtc then
    match admOps.new with
    | .ok adm =>
      match audioDeviceObserver with
      | some observer => (admOps.registerAudioDeviceCallback adm observer).map some
      | none => .ok (some adm)
    | .error _ => .ok none
  else .ok none

/-- `AudioConfig::rffi`: the files of a file-based module, or an error if there
are none, then the native build's module. -/
def AudioConfig.rffi (c : AudioConfig) : Except String (RffiAudioConfig Adm) :=
  let config (inputFile outputFile : Option String) : Except String (RffiAudioConfig Adm) :=
    match c.nativeAdm native admOps audioDeviceObserver with
    | .error e => .error e
    | .ok adm => .ok ⟨c.audioDeviceModuleType, inputFile, outputFile, c.highPassFilterEnabled,
        c.aecEnabled, c.nsEnabled, c.agcEnabled, adm⟩
  if c.audioDeviceModuleType = .file then
    match c.fileBasedAdmConfig with
    | some files => config (some files.inputFile) (some files.outputFile)
    | none => .error "no files specified for the file-based ADM!"
  else config none none

namespace AudioConfig

/-- Making the native module fails exactly when registering the observer on a
new module does. -/
lemma nativeAdm_eq_error_iff (c : AudioConfig) (e : String) :
    c.nativeAdm native admOps audioDeviceObserver = .error e ↔
      native = true ∧ c.audioDeviceModuleType = .ringRtc ∧ ∃ adm observer,
        admOps.new = .ok adm ∧ audioDeviceObserver = some observer ∧
          admOps.registerAudioDeviceCallback adm observer = .error e := by
  unfold nativeAdm
  split
  · rename_i hc
    simp only [hc, true_and]
    obtain ⟨_ | adm, register⟩ := admOps
    · simp
    · rcases audioDeviceObserver with _ | observer
      · simp
      · cases h : register adm observer <;> simp [Except.map, h]
  · simp_all

/-- A file-based configuration gets no module. -/
lemma nativeAdm_file {c : AudioConfig} (h : c.audioDeviceModuleType = .file) :
    c.nativeAdm native admOps audioDeviceObserver = .ok none := by
  simp [nativeAdm, h]

/-- A module is made only in a native build for a `RingRtc` configuration. -/
lemma nativeAdm_eq_ok {c : AudioConfig} {adm : Option Adm}
    (h : c.nativeAdm native admOps audioDeviceObserver = .ok adm) :
    adm.isSome → native = true ∧ c.audioDeviceModuleType = .ringRtc := by
  unfold nativeAdm at h
  split at h
  · exact fun _ => ‹_›
  · cases h
    exact nofun

/-- **The two failures**: `rffi` fails exactly for a file-based module without
files, with the code's message, or, in a native build for a `RingRtc` module,
when registering the observer on the new module fails, with that error. -/
theorem rffi_eq_error_iff (c : AudioConfig) (msg : String) :
    c.rffi native admOps audioDeviceObserver = .error msg ↔
      (c.audioDeviceModuleType = .file ∧ c.fileBasedAdmConfig = none ∧
        msg = "no files specified for the file-based ADM!") ∨
      (native = true ∧ c.audioDeviceModuleType = .ringRtc ∧ ∃ adm observer,
        admOps.new = .ok adm ∧ audioDeviceObserver = some observer ∧
          admOps.registerAudioDeviceCallback adm observer = .error msg) := by
  rw [← nativeAdm_eq_error_iff]
  unfold rffi
  obtain ⟨t, files, hpf, aec, ns, agc⟩ := c
  cases t with
  | file => cases files <;> simp [nativeAdm_file, eq_comm]
  | ringRtc =>
    cases h : nativeAdm native admOps audioDeviceObserver ⟨.ringRtc, files, hpf, aec, ns, agc⟩ <;>
      simp [h]

/-- Otherwise `rffi` copies the type and the four flags, hands on the file names
exactly for a file-based module, and hands on the module `nativeAdm` made, if
any, which only a native build makes for a `RingRtc` configuration
(`nativeAdm_eq_ok`). -/
theorem rffi_eq_ok {c : AudioConfig} {r : RffiAudioConfig Adm}
    (h : c.rffi native admOps audioDeviceObserver = .ok r) :
    ∃ adm, c.nativeAdm native admOps audioDeviceObserver = .ok adm ∧
      r = ⟨c.audioDeviceModuleType,
        if c.audioDeviceModuleType = .file then c.fileBasedAdmConfig.map (·.inputFile) else none,
        if c.audioDeviceModuleType = .file then c.fileBasedAdmConfig.map (·.outputFile) else none,
        c.highPassFilterEnabled, c.aecEnabled, c.nsEnabled, c.agcEnabled, adm⟩ := by
  unfold rffi at h
  obtain ⟨t, files, hpf, aec, ns, agc⟩ := c
  cases hn : nativeAdm native admOps audioDeviceObserver ⟨t, files, hpf, aec, ns, agc⟩ <;>
    cases t <;> cases files <;> simp [hn] at h ⊢ <;> exact h.symm

/-- The default configuration passes its own check outside a native build,
whatever the observer. -/
lemma default_rffi :
    default.rffi false admOps audioDeviceObserver =
      .ok ⟨.ringRtc, none, none, true, true, true, true, none⟩ := rfl

end AudioConfig

end Rffi

end RingRtc
