import Bionic.Stdlib.StrToU

namespace Bionic.Pwd

open Stdlib

def aidAppStart : Nat := 10000

def aidAppEnd : Nat := 19999

def aidCacheGidStart : Nat := 20000

def aidCacheGidEnd : Nat := 29999

def aidExtGidStart : Nat := 30000

def aidExtGidEnd : Nat := 39999

def aidExtCacheGidStart : Nat := 40000

def aidExtCacheGidEnd : Nat := 49999

def aidSharedGidStart : Nat := 50000

def aidSharedGidEnd : Nat := 59999

def aidOverflowuid : Nat := 65534

def aidIsolatedStart : Nat := 90000

def aidIsolatedEnd : Nat := 99999

def aidUserOffset : Nat := 100000

structure AndroidIdInfo where
  name : List Char
  aid : Nat
  deriving DecidableEq

/-- The AID_ constants of android_filesystem_config.h that name one id, under their friendly names. -/
def platformIds : List AndroidIdInfo :=
  [⟨"root".toList, 0⟩, ⟨"daemon".toList, 1⟩, ⟨"bin".toList, 2⟩, ⟨"system".toList, 1000⟩, ⟨"radio".toList, 1001⟩,
    ⟨"bluetooth".toList, 1002⟩, ⟨"graphics".toList, 1003⟩, ⟨"input".toList, 1004⟩, ⟨"audio".toList, 1005⟩,
    ⟨"camera".toList, 1006⟩, ⟨"log".toList, 1007⟩, ⟨"compass".toList, 1008⟩, ⟨"mount".toList, 1009⟩,
    ⟨"wifi".toList, 1010⟩, ⟨"adb".toList, 1011⟩, ⟨"install".toList, 1012⟩, ⟨"media".toList, 1013⟩,
    ⟨"dhcp".toList, 1014⟩, ⟨"sdcard_rw".toList, 1015⟩, ⟨"vpn".toList, 1016⟩, ⟨"keystore".toList, 1017⟩,
    ⟨"usb".toList, 1018⟩, ⟨"drm".toList, 1019⟩, ⟨"mdnsr".toList, 1020⟩, ⟨"gps".toList, 1021⟩,
    ⟨"unused1".toList, 1022⟩, ⟨"media_rw".toList, 1023⟩, ⟨"mtp".toList, 1024⟩, ⟨"unused2".toList, 1025⟩,
    ⟨"drmrpc".toList, 1026⟩, ⟨"nfc".toList, 1027⟩, ⟨"sdcard_r".toList, 1028⟩, ⟨"clat".toList, 1029⟩,
    ⟨"loop_radio".toList, 1030⟩, ⟨"mediadrm".toList, 1031⟩, ⟨"package_info".toList, 1032⟩,
    ⟨"sdcard_pics".toList, 1033⟩, ⟨"sdcard_av".toList, 1034⟩, ⟨"sdcard_all".toList, 1035⟩, ⟨"logd".toList, 1036⟩,
    ⟨"shared_relro".toList, 1037⟩, ⟨"dbus".toList, 1038⟩, ⟨"tlsdate".toList, 1039⟩, ⟨"mediaex".toList, 1040⟩,
    ⟨"audioserver".toList, 1041⟩, ⟨"metrics_coll".toList, 1042⟩, ⟨"metricsd".toList, 1043⟩,
    ⟨"webserv".toList, 1044⟩, ⟨"debuggerd".toList, 1045⟩, ⟨"mediacodec".toList, 1046⟩,
    ⟨"cameraserver".toList, 1047⟩, ⟨"firewall".toList, 1048⟩, ⟨"trunks".toList, 1049⟩, ⟨"nvram".toList, 1050⟩,
    ⟨"dns".toList, 1051⟩, ⟨"dns_tether".toList, 1052⟩, ⟨"webview_zygote".toList, 1053⟩,
    ⟨"vehicle_network".toList, 1054⟩, ⟨"media_audio".toList, 1055⟩, ⟨"media_video".toList, 1056⟩,
    ⟨"media_image".toList, 1057⟩, ⟨"tombstoned".toList, 1058⟩, ⟨"media_obb".toList, 1059⟩, ⟨"ese".toList, 1060⟩,
    ⟨"ota_update".toList, 1061⟩, ⟨"automotive_evs".toList, 1062⟩, ⟨"lowpan".toList, 1063⟩, ⟨"hsm".toList, 1064⟩,
    ⟨"reserved_disk".toList, 1065⟩, ⟨"statsd".toList, 1066⟩, ⟨"incidentd".toList, 1067⟩,
    ⟨"secure_element".toList, 1068⟩, ⟨"lmkd".toList, 1069⟩, ⟨"llkd".toList, 1070⟩, ⟨"iorapd".toList, 1071⟩,
    ⟨"gpu_service".toList, 1072⟩, ⟨"network_stack".toList, 1073⟩, ⟨"gsid".toList, 1074⟩,
    ⟨"fsverity_cert".toList, 1075⟩, ⟨"credstore".toList, 1076⟩, ⟨"external_storage".toList, 1077⟩,
    ⟨"ext_data_rw".toList, 1078⟩, ⟨"ext_obb_rw".toList, 1079⟩, ⟨"context_hub".toList, 1080⟩,
    ⟨"virtmanager".toList, 1081⟩, ⟨"artd".toList, 1082⟩, ⟨"uwb".toList, 1083⟩, ⟨"shell".toList, 2000⟩,
    ⟨"cache".toList, 2001⟩, ⟨"diag".toList, 2002⟩, ⟨"net_bt_admin".toList, 3001⟩, ⟨"net_bt".toList, 3002⟩,
    ⟨"inet".toList, 3003⟩, ⟨"net_raw".toList, 3004⟩, ⟨"net_admin".toList, 3005⟩, ⟨"net_bw_stats".toList, 3006⟩,
    ⟨"net_bw_acct".toList, 3007⟩, ⟨"readproc".toList, 3009⟩, ⟨"wakelock".toList, 3010⟩, ⟨"uhid".toList, 3011⟩,
    ⟨"everybody".toList, 9997⟩, ⟨"misc".toList, 9998⟩, ⟨"nobody".toList, 9999⟩, ⟨"overflowuid".toList, 65534⟩]

/-- AID_SYSTEM, AID_RADIO, AID_LOG, AID_NFC, AID_BLUETOOTH, AID_SHELL, AID_SECURE_ELEMENT, AID_NETWORK_STACK. -/
def secondaryUserPlatformIds : List Nat := [1000, 1001, 1007, 1027, 1002, 2000, 1068, 1073]

def platformIdSecondaryUserAllowed (id : Nat) : Bool := id ∈ secondaryUserPlatformIds

/-- The generated table: constants of the header, among them those that secondary users may have. -/
structure AndroidIds where
  ids : List AndroidIdInfo
  names : ∀ e ∈ ids, ∀ e' ∈ ids, e.name = e'.name → e = e'
  aids : ∀ e ∈ ids, ∀ e' ∈ ids, e.aid = e'.aid → e = e'
  platform : ∀ e ∈ ids, e ∈ platformIds
  secondary : ∀ id ∈ secondaryUserPlatformIds, ∃ e ∈ ids, e.aid = id

variable (lp64 isGroup : Bool) (ids : AndroidIds) (isSharedGid : Bool) (name s : List Char)

def findById (id : Nat) : Option AndroidIdInfo := ids.ids.find? (·.aid = id)

def findByName : Option AndroidIdInfo := ids.ids.find? (·.name = name)

structure IdRange where
  start : Nat
  last : Nat
  deriving DecidableEq

def userRanges : List IdRange := [⟨aidAppStart, aidAppEnd⟩, ⟨aidIsolatedStart, aidIsolatedEnd⟩]

def groupRanges : List IdRange :=
  [⟨aidAppStart, aidAppEnd⟩, ⟨aidCacheGidStart, aidCacheGidEnd⟩, ⟨aidExtGidStart, aidExtGidEnd⟩,
    ⟨aidExtCacheGidStart, aidExtCacheGidEnd⟩, ⟨aidSharedGidStart, aidSharedGidEnd⟩,
    ⟨aidIsolatedStart, aidIsolatedEnd⟩]

def isValidAppId (id : Nat) (isGroup : Bool) : Bool :=
  let appid := id % aidUserOffset
  let ranges := if isGroup then groupRanges else userRanges
  if appid = aidOverflowuid then false
  else if appid < aidAppStart ∧ platformIdSecondaryUserAllowed appid then true
  else if aidSharedGidStart ≤ appid ∧ appid ≤ aidSharedGidEnd ∧ appid ≠ id then false
  else ranges.any fun r => r.start ≤ appid ∧ appid ≤ r.last

/-- What app_id_from_name reads first: the user id, the string behind it, and whether a shared gid may follow. -/
def userPart : List Char → Option (Nat × List Char × Bool)
  | 'a' :: 'l' :: 'l' :: rest => if isGroup then some (0, rest, true) else none
  | 'u' :: d :: rest =>
    if d.isDigit then
      let r := strtoul lp64 (d :: rest) 10
      some (r.value, r.rest, false)
    else none
  | _ => none

/-- An unsigned long of the app id: the sum wraps around. -/
def offsetBy (value start : Nat) : Nat := (value + start) % (ulongMax lp64 + 1)

def appNumber : Option (Nat × List Char) :=
  let r := strtoul lp64 s 10
  if isSharedGid then
    let appid := offsetBy lp64 r.value aidSharedGidStart
    if aidSharedGidEnd < appid then none else some (appid, r.rest)
  else if isGroup then
    if r.rest = "_ext_cache".toList then some (offsetBy lp64 r.value aidExtCacheGidStart, [])
    else if r.rest = "_ext".toList then some (offsetBy lp64 r.value aidExtGidStart, [])
    else if r.rest = "_cache".toList then some (offsetBy lp64 r.value aidCacheGidStart, [])
    else some (offsetBy lp64 r.value aidAppStart, r.rest)
  else some (offsetBy lp64 r.value aidAppStart, r.rest)

def startsWithDigit : Bool := s.head?.any Char.isDigit

def appPart (ids : AndroidIds) : List Char → Option (Nat × List Char)
  | '_' :: c :: rest =>
    if c = 'a' ∧ startsWithDigit rest then appNumber lp64 isGroup isSharedGid rest
    else if c = 'i' ∧ startsWithDigit rest then
      let r := strtoul lp64 rest 10
      some (offsetBy lp64 r.value aidIsolatedStart, r.rest)
    else
      match findByName ids (c :: rest) with
      | some info => if platformIdSecondaryUserAllowed info.aid then some (info.aid, []) else none
      | none => some (0, '_' :: c :: rest)
  | _ => none

/-- app_id_from_name. It returns 0 where this is none. -/
def appIdFromName : Option Nat := do
  let (userid, rest, isSharedGid) ← userPart lp64 isGroup name
  let (appid, rest) ← appPart lp64 isGroup isSharedGid ids rest
  if rest ≠ [] then none
  else if 1000 < userid then none
  else if aidUserOffset ≤ appid then none
  else some ((appid + userid * aidUserOffset) % 2 ^ 32)

def fmtUnsigned (n : Nat) : List Char := Nat.toDigits 10 n

/-- What fits into the buffer besides the terminating NUL. -/
def snprintf (bufferlen : Nat) (s : List Char) : List Char := s.take (bufferlen - 1)

/-- print_app_name_from_uid, none where the buffer is not written. -/
def printAppNameFromUid (uid bufferlen : Nat) : Option (List Char) :=
  let appid := uid % aidUserOffset
  let userid := uid / aidUserOffset
  if aidIsolatedStart ≤ appid then
    some (snprintf bufferlen ('u' :: fmtUnsigned userid ++ "_i".toList ++ fmtUnsigned (appid - aidIsolatedStart)))
  else if appid < aidAppStart then
    (findById ids appid).map fun info => snprintf bufferlen ('u' :: fmtUnsigned userid ++ '_' :: info.name)
  else some (snprintf bufferlen ('u' :: fmtUnsigned userid ++ "_a".toList ++ fmtUnsigned (appid - aidAppStart)))

/-- print_app_name_from_gid, none where the buffer is not written. -/
def printAppNameFromGid (gid bufferlen : Nat) : Option (List Char) :=
  let appid := gid % aidUserOffset
  let userid := gid / aidUserOffset
  if aidIsolatedStart ≤ appid then
    some (snprintf bufferlen ('u' :: fmtUnsigned userid ++ "_i".toList ++ fmtUnsigned (appid - aidIsolatedStart)))
  else if userid = 0 ∧ aidSharedGidStart ≤ appid ∧ appid ≤ aidSharedGidEnd then
    some (snprintf bufferlen ("all_a".toList ++ fmtUnsigned (appid - aidSharedGidStart)))
  else if aidExtCacheGidStart ≤ appid ∧ appid ≤ aidExtCacheGidEnd then
    some (snprintf bufferlen
      ('u' :: fmtUnsigned userid ++ "_a".toList ++ fmtUnsigned (appid - aidExtCacheGidStart) ++ "_ext_cache".toList))
  else if aidExtGidStart ≤ appid ∧ appid ≤ aidExtGidEnd then
    some (snprintf bufferlen
      ('u' :: fmtUnsigned userid ++ "_a".toList ++ fmtUnsigned (appid - aidExtGidStart) ++ "_ext".toList))
  else if aidCacheGidStart ≤ appid ∧ appid ≤ aidCacheGidEnd then
    some (snprintf bufferlen
      ('u' :: fmtUnsigned userid ++ "_a".toList ++ fmtUnsigned (appid - aidCacheGidStart) ++ "_cache".toList))
  else if appid < aidAppStart then
    (findById ids appid).map fun info => snprintf bufferlen ('u' :: fmtUnsigned userid ++ '_' :: info.name)
  else some (snprintf bufferlen ('u' :: fmtUnsigned userid ++ "_a".toList ++ fmtUnsigned (appid - aidAppStart)))

def kGrpPwdBufferSize : Nat := 32

end Bionic.Pwd
