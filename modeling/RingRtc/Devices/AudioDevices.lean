/-
Audio device enumeration of `PeerConnectionFactory`
(`src/rust/src/webrtc/peer_connection_factory.rs`): `get_audio_playout_devices`
and `get_audio_recording_devices`, and the loop both run to give every device
without a `unique_id` one built from its name.

* `AudioDevice`, `fillUniqueIdAt`, `fillUniqueIds`: the record and the fill-in
  loop, `format!("{}-{}", name, same_name_count)` with the count cast `as u16`;
* `getElem?_fillUniqueIds`: the loop, index by index, in closed form;
* `ofDigitChars_repr`, `dash_not_mem_repr`, `dashed_inj`: a decimal suffix has no
  `-` and reads back, so `name-k` determines `name` and `k`;
* `getAudioDevices`: the shared body of the two enumerations; its loop only ever
  sees the fewer than `2^16` devices the module reported (`getAudioDevices_ok`);
* `slotCount`, `getAudioDevices_outcome`: an enumeration fails, always with
  `QueryAudioDevices`, exactly when the count is negative or the module fails
  at an index the loop asks for, and otherwise lists as many devices as the
  `u16` slot count, whose Windows `+ 2` wraps;
* `setAudioDevice`, `getAudioDevices_setAudioDevice`: selecting position `i` of
  an enumeration's list asks the module, through the Windows index swap, for
  an index where it reports a device of the name listed there;
* `FillSpec`, `getAudioDevices_fillSpec`: on every list an enumeration hands
  it the loop keeps names and given ids and fills the missing ids with
  distinct `name-k`: the `u16` count cannot wrap on fewer than `2^16` devices.
-/
import Mathlib.Data.List.Forall2
import Mathlib.Data.String.Basic
import Mathlib.Data.Nat.Digits

namespace RingRtc

/-- `AudioDevice`. -/
structure AudioDevice where
  name : String
  uniqueId : String
  i18nKey : String
  deriving DecidableEq, Repr

/-! ### The fill-in loop -/

/-- One iteration of the loop "For devices missing unique_id, populate them with
name + index", at index `i`. -/
def fillUniqueIdAt (devices : List AudioDevice) (i : Nat) : List AudioDevice :=
  match devices[i]? with
  | none => devices
  | some d =>
    if d.uniqueId.isEmpty then
      let sameNameCount : UInt16 :=
        ((devices.take i).filter fun e => e.name == d.name).length.toUInt16
      devices.set i { d with uniqueId := d.name ++ "-" ++ toString sameNameCount }
    else devices

/-- `for i in 0..devices.len()`. -/
def fillUniqueIds (devices : List AudioDevice) : List AudioDevice :=
  (List.range devices.length).foldl fillUniqueIdAt devices

/-- What the loop makes of device `d` with the devices `before` ahead of it. -/
def filledAt (before : List AudioDevice) (d : AudioDevice) : AudioDevice :=
  if d.uniqueId.isEmpty then
    { d with uniqueId :=
      d.name ++ "-" ++ toString ((before.filter fun e => e.name == d.name).length.toUInt16) }
  else d

@[simp] lemma name_filledAt (before : List AudioDevice) (d : AudioDevice) :
    (filledAt before d).name = d.name := by
  unfold filledAt; split <;> rfl

lemma filledAt_of_ne {before : List AudioDevice} {d : AudioDevice} (h : d.uniqueId ≠ "") :
    filledAt before d = d := by
  simp [filledAt, String.isEmpty_iff, h]

/-- The count of same-named devices reads only the names. -/
lemma length_filter_name {l l' : List AudioDevice} (h : l.map (·.name) = l'.map (·.name))
    (x : String) : (l.filter fun e => e.name == x).length = (l'.filter fun e => e.name == x).length := by
  have := congrArg (List.countP (· == x)) h
  rw [List.countP_map, List.countP_map] at this
  rwa [← List.countP_eq_length_filter, ← List.countP_eq_length_filter]

lemma filledAt_congr {l l' : List AudioDevice} (h : l.map (·.name) = l'.map (·.name))
    (d : AudioDevice) : filledAt l d = filledAt l' d := by
  simp only [filledAt, length_filter_name h]

lemma length_fillUniqueIdAt (devices : List AudioDevice) (i : Nat) :
    (fillUniqueIdAt devices i).length = devices.length := by
  unfold fillUniqueIdAt
  split
  · rfl
  · split <;> simp

/-- One iteration sets device `k` to `filledAt` of the devices ahead of it. -/
lemma getElem?_fillUniqueIdAt {devices : List AudioDevice} {k : Nat} {d : AudioDevice}
    (hd : devices[k]? = some d) (j : Nat) :
    (fillUniqueIdAt devices k)[j]? =
      if j = k then some (filledAt (devices.take k) d) else devices[j]? := by
  have hk : k < devices.length := (List.getElem?_eq_some_iff.mp hd).1
  unfold fillUniqueIdAt
  rw [hd]
  dsimp only
  split
  · rw [List.getElem?_set]
    by_cases hj : j = k
    · simp [hj, hk, filledAt, ‹d.uniqueId.isEmpty = true›]
    · simp [hj, Ne.symm hj]
  · rename_i hne
    by_cases hj : j = k
    · subst hj
      rw [if_pos rfl, hd, filledAt_of_ne (by simpa [String.isEmpty_iff] using hne)]
    · rw [if_neg hj]

lemma length_foldl_fillUniqueIdAt (devices : List AudioDevice) (k : Nat) :
    ((List.range k).foldl fillUniqueIdAt devices).length = devices.length := by
  induction k with
  | zero => rfl
  | succ k ih => simp [List.range_succ, length_fillUniqueIdAt, ih]

/-- The loop after `k` iterations: the first `k` devices filled, the rest as given. -/
lemma getElem?_foldl_fillUniqueIdAt (devices : List AudioDevice) :
    ∀ k ≤ devices.length, ∀ i, ((List.range k).foldl fillUniqueIdAt devices)[i]? =
      if i < k then devices[i]?.map (filledAt (devices.take i)) else devices[i]? := by
  intro k
  induction k with
  | zero => intros; simp
  | succ k ih =>
    intro hk i
    rw [List.range_succ, List.foldl_append, List.foldl_cons, List.foldl_nil]
    generalize hds : (List.range k).foldl fillUniqueIdAt devices = ds
    have hih := ih (by omega)
    rw [hds] at hih
    obtain ⟨d, hd⟩ : ∃ d, devices[k]? = some d := ⟨devices[k], by simp⟩
    have hdk : ds[k]? = some d := by simpa [hih k] using hd
    have hnames : (ds.take k).map (·.name) = (devices.take k).map (·.name) := by
      refine List.ext_getElem? fun j => ?_
      simp only [List.getElem?_map, List.getElem?_take, hih j]
      split <;> simp_all [Option.map_map, Function.comp_def]
    rw [getElem?_fillUniqueIdAt hdk, filledAt_congr hnames, hih i]
    by_cases hik : i = k
    · simp [hik, hd]
    · rw [if_neg hik]
      split <;> split <;> first | rfl | omega

/-- **The loop in closed form**: device `i` comes out as `filledAt` of the
devices ahead of it. -/
theorem getElem?_fillUniqueIds (devices : List AudioDevice) (i : Nat) :
    (fillUniqueIds devices)[i]? = devices[i]?.map (filledAt (devices.take i)) := by
  rw [fillUniqueIds, getElem?_foldl_fillUniqueIdAt devices _ le_rfl i]
  split
  · rfl
  · rw [List.getElem?_eq_none (by omega)]; rfl

lemma length_fillUniqueIds (devices : List AudioDevice) :
    (fillUniqueIds devices).length = devices.length :=
  length_foldl_fillUniqueIdAt devices _

/-! ### The decimal suffix -/

/-- Reading decimal digits back, most significant first. -/
def ofDigitChars (cs : List Char) : Nat :=
  cs.foldl (fun acc c => 10 * acc + (c.toNat - '0'.toNat)) 0

lemma digitChar_toNat {d : Nat} (h : d < 10) : (Nat.digitChar d).toNat - '0'.toNat = d := by
  have key : ∀ d < 10, (Nat.digitChar d).toNat - '0'.toNat = d := by decide
  exact key d h

/-- `Nat.toDigitsCore` puts the digits of `n` in front of `ds`: reading them shifts
the accumulator by some power of ten and adds `n`. -/
lemma foldl_toDigitsCore (fuel : Nat) : ∀ (n : Nat) (ds : List Char) (acc : Nat), n < fuel →
    ∃ k, (Nat.toDigitsCore 10 fuel n ds).foldl (fun acc c => 10 * acc + (c.toNat - '0'.toNat)) acc =
      ds.foldl (fun acc c => 10 * acc + (c.toNat - '0'.toNat)) (acc * 10 ^ k + n) := by
  induction fuel with
  | zero => intro n _ _ h; omega
  | succ fuel ih =>
    intro n ds acc h
    simp only [Nat.toDigitsCore]
    split
    · refine ⟨1, ?_⟩
      simp only [List.foldl_cons, digitChar_toNat (Nat.mod_lt n (by omega))]
      congr 1
      omega
    · obtain ⟨k, hk⟩ := ih (n / 10) (Nat.digitChar (n % 10) :: ds) acc (by omega)
      refine ⟨k + 1, ?_⟩
      rw [hk, List.foldl_cons, digitChar_toNat (Nat.mod_lt n (by omega))]
      congr 1
      rw [Nat.pow_succ, ← Nat.mul_assoc]
      generalize acc * 10 ^ k = x
      omega

/-- **Decimal round trip**: the digits `Nat.repr` writes read back to the number. -/
theorem ofDigitChars_repr (n : Nat) : ofDigitChars (Nat.repr n).data = n := by
  obtain ⟨k, hk⟩ := foldl_toDigitsCore (n + 1) n [] 0 (by omega)
  simpa [ofDigitChars, Nat.repr, Nat.toDigits] using hk

lemma mem_toDigitsCore (fuel : Nat) : ∀ (n : Nat) (ds : List Char) (c : Char),
    c ∈ Nat.toDigitsCore 10 fuel n ds → c ∈ ds ∨ ∃ d < 10, c = Nat.digitChar d := by
  induction fuel with
  | zero => intro n ds c h; exact .inl h
  | succ fuel ih =>
    intro n ds c h
    simp only [Nat.toDigitsCore] at h
    have hd : Nat.digitChar (n % 10) = c ∨ c ∈ ds → c ∈ ds ∨ ∃ d < 10, c = Nat.digitChar d
      | .inl h => .inr ⟨_, Nat.mod_lt n (by omega), h.symm⟩
      | .inr h => .inl h
    split at h
    · exact hd (List.mem_cons.mp h |>.imp_left Eq.symm)
    · rcases ih _ _ c h with h | h
      · exact hd (List.mem_cons.mp h |>.imp_left Eq.symm)
      · exact .inr h

lemma dash_not_mem_repr (n : Nat) : '-' ∉ (Nat.repr n).data := by
  intro h
  rcases mem_toDigitsCore _ _ _ _ h with h | ⟨d, hd, he⟩
  · simp at h
  · have : ∀ d < 10, Nat.digitChar d ≠ '-' := by decide
    exact this d hd he.symm

/-- A `-` followed by dash-free text marks where the text starts. -/
lemma append_dash_inj : ∀ {a a' x y : List Char}, '-' ∉ x → '-' ∉ y →
    a ++ '-' :: x = a' ++ '-' :: y → a = a' ∧ x = y
  | [], [], _, _, _, _, h => ⟨rfl, by simpa using h⟩
  | [], c :: a', _, _, hx, _, h => by
    simp only [List.nil_append, List.cons_append, List.cons.injEq] at h
    exact absurd (h.2 ▸ by simp) hx
  | c :: a, [], _, _, _, hy, h => by
    simp only [List.nil_append, List.cons_append, List.cons.injEq] at h
    exact absurd (h.2 ▸ by simp) hy
  | c :: a, c' :: a', _, _, hx, hy, h => by
    simp only [List.cons_append, List.cons.injEq] at h
    obtain ⟨h1, h2⟩ := append_dash_inj hx hy h.2
    exact ⟨by rw [h.1, h1], h2⟩

/-- **`name-k` determines `name` and `k`**, whatever the name holds, dashes and
digits included. -/
theorem dashed_inj {a b : String} {m n : Nat}
    (h : a ++ "-" ++ toString m = b ++ "-" ++ toString n) : a = b ∧ m = n := by
  have hd := congrArg String.data h
  simp only [String.data_append, List.append_assoc, List.singleton_append] at hd
  obtain ⟨hab, hmn⟩ := append_dash_inj (dash_not_mem_repr m) (dash_not_mem_repr n) hd
  exact ⟨String.ext hab, by rw [← ofDigitChars_repr m, ← ofDigitChars_repr n]; exact congrArg _ hmn⟩

lemma dashed_ne_empty (a s : String) : a ++ "-" ++ s ≠ "" := by
  intro h
  simpa using congrArg String.data h

/-! ### What the loop guarantees -/

/-- What the fill-in loop is for: names and given ids kept, each missing id
filled as `name-k` with `k` the number of same-named devices ahead, every id
non-empty, and no two filled ids equal. -/
structure FillSpec (devices out : List AudioDevice) : Prop where
  length_eq : out.length = devices.length
  keeps : ∀ (i : Nat) (d : AudioDevice), devices[i]? = some d → d.uniqueId ≠ "" → out[i]? = some d
  fills : ∀ (i : Nat) (d : AudioDevice), devices[i]? = some d → d.uniqueId = "" →
    out[i]? = some { d with
      uniqueId := d.name ++ "-" ++ toString ((devices.take i).countP fun e => e.name == d.name) }
  ids_ne_empty : ∀ d ∈ out, d.uniqueId ≠ ""
  distinct : ∀ (i j : Nat) (d e d' e' : AudioDevice), i ≠ j → devices[i]? = some d → devices[j]? = some e →
    d.uniqueId = "" → e.uniqueId = "" → out[i]? = some d' → out[j]? = some e' →
    d'.uniqueId ≠ e'.uniqueId

lemma toString_toUInt16 {n : Nat} (h : n < UInt16.size) : toString n.toUInt16 = toString n :=
  congrArg toString (UInt16.toNat_ofNat_of_lt h)

lemma filledAt_of_eq {before : List AudioDevice} {d : AudioDevice} (h : d.uniqueId = "")
    (hb : before.length < UInt16.size) :
    filledAt before d =
      { d with uniqueId := d.name ++ "-" ++ toString (before.countP fun e => e.name == d.name) } := by
  have hc : (before.countP fun e => e.name == d.name) < UInt16.size :=
    lt_of_le_of_lt (List.countP_le_length _) hb
  rw [List.countP_eq_length_filter] at hc ⊢
  simp [filledAt, String.isEmpty_iff, h, toString_toUInt16 hc]

lemma uniqueId_filledAt_ne_empty (before : List AudioDevice) (d : AudioDevice) :
    (filledAt before d).uniqueId ≠ "" := by
  unfold filledAt
  split
  · exact dashed_ne_empty _ _
  · rename_i hne
    rwa [String.isEmpty_iff] at hne

/-- A device counts the same-named devices ahead of it, so a later one counts more. -/
lemma countP_take_lt {devices : List AudioDevice} {i j : Nat} {d : AudioDevice} (hij : i < j)
    (hd : devices[i]? = some d) (x : String) (hx : d.name = x) :
    (devices.take i).countP (fun e => e.name == x) <
      (devices.take j).countP (fun e => e.name == x) := by
  have hsucc : (devices.take (i + 1)).countP (fun e => e.name == x) =
      (devices.take i).countP (fun e => e.name == x) + 1 := by
    simp [List.take_succ, hd, hx]
  have hle := ((List.take_sublist_take_left devices (show i + 1 ≤ j from hij)).countP_le
    (fun e => e.name == x))
  omega

/-- Two filled devices, the earlier at `i`, get different ids. -/
lemma filledAt_ne_of_lt {devices : List AudioDevice} {i j : Nat} {d e : AudioDevice}
    (hij : i < j) (hlen : devices.length ≤ UInt16.size)
    (hd : devices[i]? = some d) (he : devices[j]? = some e)
    (hdu : d.uniqueId = "") (heu : e.uniqueId = "") :
    (filledAt (devices.take i) d).uniqueId ≠ (filledAt (devices.take j) e).uniqueId := by
  have hj : j < devices.length := (List.getElem?_eq_some_iff.mp he).1
  rw [filledAt_of_eq hdu (by simp; omega), filledAt_of_eq heu (by simp; omega)]
  intro h
  obtain ⟨hname, hk⟩ := dashed_inj h
  rw [hname] at hk
  exact absurd hk (countP_take_lt hij hd e.name hname).ne

/-- The loop does what it is for on every list of at most `2^16` devices, where
the same-name count fits its `u16`. -/
lemma fillSpec_fillUniqueIds (devices : List AudioDevice) (h : devices.length ≤ UInt16.size) :
    FillSpec devices (fillUniqueIds devices) := by
  have hout := getElem?_fillUniqueIds devices
  have htake : ∀ i d, devices[i]? = some d → (devices.take i).length < UInt16.size :=
    fun i d hd => by have := (List.getElem?_eq_some_iff.mp hd).1; simp; omega
  refine ⟨length_fillUniqueIds devices, ?keeps, ?fills, ?ne_empty, ?distinct⟩
  case keeps => intro i d hd hne; simp [hout, hd, filledAt_of_ne hne]
  case fills => intro i d hd hem; simp [hout, hd, filledAt_of_eq hem (htake i d hd)]
  case ne_empty =>
    intro d' hd'
    obtain ⟨i, hi⟩ := List.mem_iff_getElem?.mp hd'
    rw [hout] at hi
    obtain ⟨d, -, rfl⟩ := Option.map_eq_some'.mp hi
    exact uniqueId_filledAt_ne_empty _ _
  case distinct =>
    intro i j d e d' e' hij hd he hdu heu hd' he'
    simp only [hout, hd, he, Option.map_some', Option.some.injEq] at hd' he'
    subst hd' he'
    rcases Nat.lt_or_gt_of_ne hij with hlt | hlt
    · exact filledAt_ne_of_lt hlt h hd he hdu heu
    · exact (filledAt_ne_of_lt hlt h he hd heu hdu).symm

/-! ### The enumeration -/

/-- `RingRtcError`, the variants the device functions return. -/
inductive RingRtcError where
  | queryAudioDevices
  | setAudioDevice
  deriving DecidableEq, Repr

/-- The FFI calls behind one direction of the audio device module: the device
count (`Rust_getAudioPlayoutDevices`), for an index the return code with the
name and unique id buffers (`Rust_getAudioPlayoutDeviceName`), and selecting an
index (`Rust_setAudioPlayoutDevice`); or the recording ones. Their C types
are declared outside `src/`, so the count is any integer here. -/
structure AudioDeviceQueries where
  deviceCount : Int
  deviceName : UInt16 → Int × String × String
  setDevice : UInt16 → Bool

/-- `get_audio_playout_device` and `get_audio_recording_device`. -/
def getAudioDevice (adm : AudioDeviceQueries) (index : UInt16) :
    Except RingRtcError AudioDevice :=
  let (rc, name, uniqueId) := adm.deviceName index
  if rc ≠ 0 then .error .queryAudioDevices
  else .ok { name := name, uniqueId := uniqueId, i18nKey := "" }

/-- On Windows, with at least two devices: swap the "default" and "default
communications" slots and suffix their ids `-0` and `-1`. -/
def swapDefaultSlots : List AudioDevice → List AudioDevice
  | d0 :: d1 :: rest =>
    { d1 with uniqueId := d1.uniqueId ++ "-0" } :: { d0 with uniqueId := d0.uniqueId ++ "-1" } :: rest
  | devices => devices

lemma length_swapDefaultSlots (l : List AudioDevice) :
    (swapDefaultSlots l).length = l.length := by
  unfold swapDefaultSlots
  split <;> simp

/-- The count the collecting loop runs to, once `device_count` is known not to
be negative: `device_count as u16`, and on Windows (`windows` is
`cfg(target_os = "windows")`) two more slots when there is a device, the `u16`
sum wrapping as in a release build (a debug build panics on the overflow). -/
def slotCount (windows : Bool) (deviceCount : Int) : UInt16 :=
  let deviceCount : UInt16 := deviceCount.toNat.toUInt16
  if windows then (if deviceCount > 0 then deviceCount + 2 else 0) else deviceCount

/-- The body shared by `get_audio_playout_devices` and
`get_audio_recording_devices`. The `device_counts` field only decides a log line
and is left out. -/
def getAudioDevices (windows : Bool) (adm : AudioDeviceQueries) :
    Except RingRtcError (List AudioDevice) :=
  if adm.deviceCount < 0 then .error .queryAudioDevices
  else
    match (List.range (slotCount windows adm.deviceCount).toNat).mapM
        fun i => getAudioDevice adm i.toUInt16 with
    | .error fail => .error fail
    | .ok devices =>
      let devices := fillUniqueIds devices
      .ok (if windows then swapDefaultSlots devices else devices)

/-- The factory's two directions. -/
structure PeerConnectionFactory where
  playout : AudioDeviceQueries
  recording : AudioDeviceQueries

/-- `get_audio_playout_devices`. -/
def PeerConnectionFactory.getAudioPlayoutDevices (windows : Bool) (pcf : PeerConnectionFactory) :
    Except RingRtcError (List AudioDevice) :=
  getAudioDevices windows pcf.playout

/-- `get_audio_recording_devices`. -/
def PeerConnectionFactory.getAudioRecordingDevices (windows : Bool) (pcf : PeerConnectionFactory) :
    Except RingRtcError (List AudioDevice) :=
  getAudioDevices windows pcf.recording

/-- The index `set_audio_playout_device` and `set_audio_recording_device` pass
to the module: on Windows the first two are swapped back. -/
def deviceIndex (windows : Bool) (index : UInt16) : UInt16 :=
  if windows then
    match index with
    | 0 => 1
    | 1 => 0
    | _ => index
  else index

/-- `set_audio_playout_device` and `set_audio_recording_device`. -/
def setAudioDevice (windows : Bool) (adm : AudioDeviceQueries) (index : UInt16) :
    Except RingRtcError Unit :=
  if adm.setDevice (deviceIndex windows index) then .ok () else .error .setAudioDevice

/-- `set_audio_playout_device`. -/
def PeerConnectionFactory.setAudioPlayoutDevice (windows : Bool) (pcf : PeerConnectionFactory)
    (index : UInt16) : Except RingRtcError Unit :=
  setAudioDevice windows pcf.playout index

/-- `set_audio_recording_device`. -/
def PeerConnectionFactory.setAudioRecordingDevice (windows : Bool) (pcf : PeerConnectionFactory)
    (index : UInt16) : Except RingRtcError Unit :=
  setAudioDevice windows pcf.recording index

/-- The collecting loop succeeds exactly when every index does, in order. -/
lemma forall₂_of_mapM_eq_ok {ε α β : Type} {f : α → Except ε β} :
    ∀ {xs : List α} {ys : List β}, xs.mapM f = .ok ys → List.Forall₂ (fun x y => f x = .ok y) xs ys
  | [], ys, h => by
    cases h
    exact .nil
  | x :: xs, ys, h => by
    rw [List.mapM_cons] at h
    cases hx : f x <;> cases hxs : xs.mapM f <;>
      simp only [hx, hxs, bind, Except.bind, pure, Except.pure, reduceCtorEq, Except.ok.injEq] at h
    subst h
    exact .cons hx (forall₂_of_mapM_eq_ok hxs)

/-- **What an enumeration returns**: the fill-in loop, then on Windows the slot
swap, over the devices the module reported at indices `0, 1, …`, fewer than
`2^16` of them. -/
theorem getAudioDevices_ok {windows : Bool} {adm : AudioDeviceQueries}
    {out : List AudioDevice} (h : getAudioDevices windows adm = .ok out) :
    ∃ n devices, n < UInt16.size ∧
      List.Forall₂ (fun i d => getAudioDevice adm i.toUInt16 = .ok d) (List.range n) devices ∧
      out = if windows then swapDefaultSlots (fillUniqueIds devices) else fillUniqueIds devices := by
  unfold getAudioDevices at h
  split at h
  · cases h
  · dsimp only at h
    split at h
    · cases h
    · rename_i devices hdevices
      cases h
      exact ⟨_, devices, UInt16.toNat_lt _, forall₂_of_mapM_eq_ok hdevices, rfl⟩

/-- **The fill-in loop on every list it is given**: each successful
enumeration, on Windows or not, runs the loop on the devices the module
reported at indices `0, 1, …`, fewer than `2^16` of them, and there the loop
keeps every name and given id and gives each device without an id its own
non-empty `name-k`. -/
theorem getAudioDevices_fillSpec {windows : Bool} {adm : AudioDeviceQueries}
    {out : List AudioDevice} (h : getAudioDevices windows adm = .ok out) :
    ∃ devices, devices.length < UInt16.size ∧
      List.Forall₂ (fun i d => getAudioDevice adm i.toUInt16 = .ok d)
        (List.range devices.length) devices ∧
      FillSpec devices (fillUniqueIds devices) ∧
      out = if windows then swapDefaultSlots (fillUniqueIds devices) else fillUniqueIds devices := by
  obtain ⟨n, devices, hn, hdevices, rfl⟩ := getAudioDevices_ok h
  obtain rfl : devices.length = n := by rw [← hdevices.length_eq, List.length_range]
  exact ⟨devices, hn, hdevices, fillSpec_fillUniqueIds devices hn.le, rfl⟩

/-- Two microphones of one name and no ids, each given its own. -/
theorem two_mics_enumeration_fillSpec :
    let adm : AudioDeviceQueries := ⟨2, fun _ => (0, "Mic", ""), fun _ => true⟩
    let out : List AudioDevice := [⟨"Mic", "Mic-0", ""⟩, ⟨"Mic", "Mic-1", ""⟩]
    getAudioDevices false adm = .ok out ∧
      ∃ devices, devices.length < UInt16.size ∧
        List.Forall₂ (fun i d => getAudioDevice adm i.toUInt16 = .ok d)
          (List.range devices.length) devices ∧
        FillSpec devices (fillUniqueIds devices) ∧
        out = if false then swapDefaultSlots (fillUniqueIds devices) else fillUniqueIds devices := by
  intro adm out
  have h : getAudioDevices false adm = .ok out := rfl
  exact ⟨h, getAudioDevices_fillSpec h⟩

/-! ### Failures and the slot count -/

lemma toNat_toUInt16 (n : Nat) : n.toUInt16.toNat = n % UInt16.size :=
  BitVec.toNat_ofNat _ _

/-- The slot count in `Nat`: the device count modulo `2^16`, and on Windows two
more when that is not zero, again modulo `2^16`. -/
lemma slotCount_toNat (windows : Bool) (c : Int) :
    (slotCount windows c).toNat =
      if windows ∧ c.toNat % UInt16.size ≠ 0 then (c.toNat % UInt16.size + 2) % UInt16.size
      else c.toNat % UInt16.size := by
  have hpos : ∀ x : UInt16, x > 0 ↔ x.toNat ≠ 0 := fun x => by
    rw [gt_iff_lt, UInt16.lt_def, BitVec.lt_def]
    simp [Nat.pos_iff_ne_zero]
    rfl
  cases windows <;> simp only [slotCount, hpos, toNat_toUInt16, Bool.false_eq_true, false_and,
    if_false, true_and, if_true]
  split
  · exact BitVec.toNat_add _ _
  · rename_i h
    rw [UInt16.toNat_zero, not_not.mp h]

/-- The device the module reports at an index, read off its return code. -/
lemma getAudioDevice_eq (adm : AudioDeviceQueries) (index : UInt16) :
    getAudioDevice adm index =
      if (adm.deviceName index).1 ≠ 0 then .error .queryAudioDevices
      else .ok ⟨(adm.deviceName index).2.1, (adm.deviceName index).2.2, ""⟩ := by
  unfold getAudioDevice
  obtain ⟨rc, name, uniqueId⟩ := adm.deviceName index
  rfl

/-- The collecting loop fails on the first index the module fails on, and
otherwise collects every device. -/
lemma mapM_getAudioDevice (adm : AudioDeviceQueries) : ∀ xs : List Nat,
    xs.mapM (fun i => getAudioDevice adm i.toUInt16) =
      if ∃ i ∈ xs, (adm.deviceName i.toUInt16).1 ≠ 0 then .error .queryAudioDevices
      else .ok (xs.map fun i => ⟨(adm.deviceName i.toUInt16).2.1, (adm.deviceName i.toUInt16).2.2, ""⟩)
  | [] => rfl
  | x :: xs => by
    rw [List.mapM_cons, getAudioDevice_eq, mapM_getAudioDevice adm xs]
    by_cases hx : (adm.deviceName x.toUInt16).1 ≠ 0
    · rw [if_pos hx, if_pos (show ∃ i ∈ x :: xs, (adm.deviceName i.toUInt16).1 ≠ 0 from
        ⟨x, List.mem_cons_self _ _, hx⟩)]
      rfl
    · rw [if_neg hx]
      simp only [List.mem_cons, exists_eq_or_imp, hx, false_or]
      split <;> rfl

/-- **What an enumeration does**, on every module: it fails, always with
`QueryAudioDevices`, exactly when the module's count is negative or the module
fails at one of the indices the loop asks for; otherwise it returns exactly as
many devices as the `u16` slot count, which is the module's count modulo `2^16`
and on Windows two more when that is not zero, again modulo `2^16`. -/
theorem getAudioDevices_outcome (windows : Bool) (adm : AudioDeviceQueries) :
    let slots := if windows ∧ adm.deviceCount.toNat % UInt16.size ≠ 0 then
      (adm.deviceCount.toNat % UInt16.size + 2) % UInt16.size else adm.deviceCount.toNat % UInt16.size
    (∀ e, getAudioDevices windows adm = .error e ↔
      e = .queryAudioDevices ∧ (adm.deviceCount < 0 ∨ ∃ i < slots, (adm.deviceName i.toUInt16).1 ≠ 0)) ∧
    ∀ out, getAudioDevices windows adm = .ok out → out.length = slots := by
  intro slots
  have hslots : (slotCount windows adm.deviceCount).toNat = slots := slotCount_toNat _ _
  unfold getAudioDevices
  by_cases hneg : adm.deviceCount < 0
  · rw [if_pos hneg]
    exact ⟨fun e => ⟨fun h => ⟨(Except.error.inj h).symm, .inl hneg⟩, fun h => h.1 ▸ rfl⟩,
      fun _ h => nomatch h⟩
  rw [if_neg hneg, mapM_getAudioDevice, hslots]
  simp only [List.mem_range, hneg, false_or]
  by_cases hfail : ∃ i < slots, (adm.deviceName i.toUInt16).1 ≠ 0
  · rw [if_pos hfail]
    exact ⟨fun e => ⟨fun h => ⟨(Except.error.inj h).symm, hfail⟩, fun h => h.1 ▸ rfl⟩,
      fun _ h => nomatch h⟩
  · rw [if_neg hfail]
    refine ⟨fun e => ⟨fun h => (nomatch h), fun h => absurd h.2 hfail⟩, fun out h => ?_⟩
    cases h
    split <;> simp [length_swapDefaultSlots, length_fillUniqueIds]

/-- On Windows the two extra slots wrap the `u16` count: a module reporting
`65534` devices, each fine, gives an empty list. The count's C type is declared
outside `src/`: the case needs it wider than WebRTC's `int16_t`, and a release
build, where the `u16` sum wraps; a debug build panics on the overflow. -/
example : getAudioDevices true ⟨65534, fun _ => (0, "", ""), fun _ => true⟩ = .ok [] := rfl

/-! ### Choosing a listed device -/

lemma toUInt16_toNat (x : UInt16) : x.toNat.toUInt16 = x :=
  UInt16.eq_of_toBitVec_eq (BitVec.eq_of_toNat_eq (UInt16.toBitVec_eq_of_lt x.toNat_lt))

/-- The list position an index stands for: on Windows the first two swap. -/
lemma toNat_deviceIndex (windows : Bool) {i : Nat} (hi : i < UInt16.size) :
    (deviceIndex windows i.toUInt16).toNat =
      if windows then (if i = 0 then 1 else if i = 1 then 0 else i) else i := by
  have hnat : i.toUInt16.toNat = i := UInt16.toNat_ofNat_of_lt hi
  cases windows with
  | false => exact hnat
  | true =>
    unfold deviceIndex
    rw [if_pos rfl]
    split
    · rename_i h
      obtain rfl : i = 0 := (hnat.symm.trans (congrArg UInt16.toNat h)).trans rfl
      rfl
    · rename_i h
      obtain rfl : i = 1 := (hnat.symm.trans (congrArg UInt16.toNat h)).trans rfl
      rfl
    · rename_i h0 h1
      have hi0 : i ≠ 0 := by rintro rfl; exact h0 rfl
      have hi1 : i ≠ 1 := by rintro rfl; exact h1 rfl
      simp [hi0, hi1, hnat]

lemma name_fillUniqueIds (devices : List AudioDevice) (k : Nat) :
    (fillUniqueIds devices)[k]?.map (·.name) = devices[k]?.map (·.name) := by
  rw [getElem?_fillUniqueIds]
  cases devices[k]? <;> simp

/-- The Windows swap, as positions of names. -/
lemma name_swapDefaultSlots {l : List AudioDevice} (hl : l.length ≠ 1) (k : Nat) :
    (swapDefaultSlots l)[k]?.map (·.name) =
      l[if k = 0 then 1 else if k = 1 then 0 else k]?.map (·.name) := by
  match l, k with
  | [], _ => simp [swapDefaultSlots]
  | [_], _ => exact absurd rfl hl
  | _ :: _ :: _, 0 | _ :: _ :: _, 1 | _ :: _ :: _, _ + 2 => simp [swapDefaultSlots]

/-- The index `set_audio_*_device` hands the module for position `i` of an
enumeration's list is one where the module reports a device of the name listed
at `i`. -/
lemma getAudioDevices_deviceIndex {windows : Bool} {adm : AudioDeviceQueries}
    {out : List AudioDevice} (h : getAudioDevices windows adm = .ok out)
    (hlen : windows = true → out.length ≠ 1)
    {i : Nat} (hi : i < out.length) :
    ∃ d, getAudioDevice adm (deviceIndex windows i.toUInt16) = .ok d ∧
      out[i]?.map (·.name) = some d.name := by
  obtain ⟨n, devices, hn, hdevices, rfl⟩ := getAudioDevices_ok h
  have hdl : devices.length = n := by rw [← hdevices.length_eq, List.length_range]
  have hol : (if windows then swapDefaultSlots (fillUniqueIds devices)
      else fillUniqueIds devices).length = devices.length := by
    split <;> simp [length_swapDefaultSlots, length_fillUniqueIds]
  rw [hol] at hi hlen
  set j := (deviceIndex windows i.toUInt16).toNat with hj
  rw [toNat_deviceIndex windows (by omega)] at hj
  have hjl : j < devices.length := by
    rw [hj]
    split_ifs with hw <;> first | omega | (specialize hlen hw; omega)
  have hname : (if windows then swapDefaultSlots (fillUniqueIds devices)
      else fillUniqueIds devices)[i]?.map (·.name) = devices[j]?.map (·.name) := by
    rw [hj]
    cases windows with
    | false => exact name_fillUniqueIds devices i
    | true =>
      rw [if_pos rfl, name_swapDefaultSlots (by rw [length_fillUniqueIds]; exact hlen rfl),
        name_fillUniqueIds]
      rfl
  refine ⟨devices[j], ?_, by rw [hname, List.getElem?_eq_getElem hjl]; rfl⟩
  have hdi : deviceIndex windows i.toUInt16 = j.toUInt16 := (toUInt16_toNat _).symm
  have := hdevices.get (by rw [List.length_range]; omega) hjl
  rw [hdi]
  simpa using this

/-- **Choosing a listed device selects it**: when an enumeration returns `out`,
`set_audio_*_device` for position `i` of `out` asks the module to select one
index, whatever the module answers, and the module reports there a device of
the name listed at `i`; the setter succeeds exactly when the module accepts
that index. On Windows `out` must not be a single device: the list is swapped
only from two devices on, the index whatever the length. -/
theorem getAudioDevices_setAudioDevice {windows : Bool} {adm : AudioDeviceQueries}
    {out : List AudioDevice} (h : getAudioDevices windows adm = .ok out)
    (hlen : windows = true → out.length ≠ 1) {i : Nat} (hi : i < out.length) :
    ∃ j d, getAudioDevice adm j = .ok d ∧ out[i]?.map (·.name) = some d.name ∧
      ∀ select : UInt16 → Bool, setAudioDevice windows { adm with setDevice := select } i.toUInt16 =
        if select j then .ok () else .error .setAudioDevice := by
  obtain ⟨d, hd, hname⟩ := getAudioDevices_deviceIndex h hlen hi
  exact ⟨_, d, hd, hname, fun _ => rfl⟩

/-- On Windows a module with one real device lists the two default slots
before it; position `0`, the "default communications" slot, has the module
select its index `1`. -/
theorem windows_communications_slot_selected :
    let adm : AudioDeviceQueries := ⟨1, fun i => if i = 0 then (0, "Default", "")
      else if i = 1 then (0, "Communications", "") else (0, "Speakers", "spk"), fun _ => true⟩
    let out : List AudioDevice := [⟨"Communications", "Communications-0-0", ""⟩,
      ⟨"Default", "Default-0-1", ""⟩, ⟨"Speakers", "spk", ""⟩]
    getAudioDevices true adm = .ok out ∧ (true = true → out.length ≠ 1) ∧ 0 < out.length ∧
      ∃ j d, getAudioDevice adm j = .ok d ∧ out[0]?.map (·.name) = some d.name ∧
        ∀ select : UInt16 → Bool, setAudioDevice true { adm with setDevice := select } (Nat.toUInt16 0) =
          if select j then .ok () else .error .setAudioDevice := by
  intro adm out
  have h : getAudioDevices true adm = .ok out := rfl
  exact ⟨h, by decide, by decide, getAudioDevices_setAudioDevice h (by decide) (by decide)⟩

end RingRtc
