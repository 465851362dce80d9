/-
Is the page the right one? get_rtt with setup_curl and write_callback (client/nice_client.c), scan_addr with
pwrite_callback (client/port_scanner.c).

libcurl is a parameter, `Libcurl`: what the calls return. A handle is the list of the options that are set on it. The
page comes in pieces, `Chunk`, each a pointer into memory: strstr reads from there to the first zero, in the piece or
behind it. `Delivers` says that nothing fails but the transfer, and that one when a callback returns something else than
the size of its piece.

Both functions succeed when every piece shows the text (`getRtt_iff`, `scanAddr_iff`), which is something else than that
the page has it: a page that is cut within the text, or goes on behind it, is refused, and an empty one is accepted.

- `page_verified_iff`: the verdict is right exactly when the pieces agree with the page (`ChunksAgree`);
- `chunksAgree_iff_of_terminated`: which means, if a zero follows each piece, that the page is not empty and, if it has
  the text, every piece has it before its first zero.
-/
import NetSec.Core.Lines
import NetSec.Core.Memory

namespace NetSec.Client

open NetSec.Text NetSec.Memory

/-! ## Callbacks -/

/-- what a callback gets: a piece of the page, and what memory holds behind it -/
structure Chunk where
  bytes : Text
  behind : Text
  nonempty : bytes ≠ []
  fits : bytes.length + 1 < 2 ^ 64

/-- the string that the pointer points to -/
def Chunk.text (ptr : Chunk) : Text := cString (ptr.bytes ++ ptr.behind)

def Chunk.nmemb (ptr : Chunk) : BitVec 64 := BitVec.ofNat 64 ptr.bytes.length

abbrev Callback := Chunk → BitVec 64 → BitVec 64 → BitVec 64

def natdaemon : Text := "natdaemon".toList

/-- the body that the two callbacks share -/
def verify (ptr : Chunk) (size nmemb : BitVec 64) : BitVec 64 :=
  if strstr ptr.text natdaemon then size * nmemb else -1

def writeCallback : Callback := verify

def pwriteCallback : Callback := verify

/-! ## libcurl -/

inductive CurlOption where
  | sockoptFunction
  | interface (name : Text)
  | port (port : BitVec 16)
  | writeFunction (f : Callback)
  | timeoutMs (ms : ℕ)
  | connectTimeout (s : ℕ)
  | noSignal (on : ℕ)
  | url (url : Text)

/-- the options that are set, the last one first -/
abbrev Handle := List CurlOption

abbrev CurlCode := ℕ

def curleOk : CurlCode := 0

structure Libcurl where
  easyInit : Bool
  setopt : CurlOption → CurlCode
  perform : Handle → List Chunk → CurlCode

def CurlOption.callback : CurlOption → Option Callback
  | .writeFunction f => some f
  | _ => none

/-- nothing fails but a transfer whose callback returns something else than the size of its piece -/
structure Libcurl.Delivers (curl : Libcurl) : Prop where
  easyInit : curl.easyInit = true
  setopt : ∀ o, curl.setopt o = curleOk
  perform : ∀ handle page f, handle.findSome? CurlOption.callback = some f →
    (curl.perform handle page = curleOk ↔ ∀ c ∈ page, f c 1 c.nmemb = 1 * c.nmemb)

/-- options set one after the other, up to one that is refused -/
def Libcurl.setopts (curl : Libcurl) : List CurlOption → Handle → Option Handle
  | [], handle => some handle
  | o :: options, handle => if curl.setopt o = curleOk then curl.setopts options (o :: handle) else none

/-! ## get_rtt and scan_addr -/

/-- the four bytes of an address, as they lie in memory -/
def inetNtoa (addr : BitVec 32) : Text :=
  let part k := decimal (addr.extractLsb' k 8).toNat
  part 0 ++ '.' :: part 8 ++ '.' :: part 16 ++ '.' :: part 24

/-- NULL when there is no room -/
def inetNtop (addr : BitVec 32) (size : ℕ) : Option Text :=
  if (inetNtoa addr).length < size then some (inetNtoa addr) else none

def clientOptions (nport : BitVec 16) (srcip : BitVec 32) : List CurlOption :=
  [.sockoptFunction, .interface (inetNtoa srcip), .port (swap nport), .writeFunction writeCallback, .timeoutMs 2000,
    .connectTimeout 2, .noSignal 1]

def setupCurl (curl : Libcurl) (nport : BitVec 16) (srcip : BitVec 32) : Option Handle :=
  if curl.easyInit then curl.setopts (clientOptions nport srcip) [] else none

structure Timespec where
  sec : ℤ
  nsec : ℤ

/-- microseconds -/
def roundTrip (start stop : Timespec) : BitVec 32 :=
  BitVec.ofInt 32 (1000000 * (stop.sec - start.sec) + (stop.nsec - start.nsec).tdiv 1000)

/-- the result, and `*rtt`; `nAddr` is what resolve returns -/
def getRtt (curl : Libcurl) (handle : Handle) (nAddr : BitVec 32) (page : List Chunk) (start stop : Timespec)
    (rtt : BitVec 32) : ℤ × BitVec 32 :=
  if nAddr = -1 then (-1, rtt)
  else
    match curl.setopts [.url (inetNtoa nAddr)] handle with
    | none => (-1, rtt)
    | some handle =>
      if curl.perform handle page = curleOk then (0, roundTrip start stop) else (-1, rtt)

structure ScanAddrIn where
  toScan : BitVec 32
  port : BitVec 16
  srcip : BitVec 32

def scanOptions (toScan iface : Text) (port : BitVec 16) : List CurlOption :=
  [.sockoptFunction, .interface iface, .port port, .writeFunction pwriteCallback, .timeoutMs 2000, .connectTimeout 2,
    .noSignal 1, .url toScan]

/-- NULL, or `*ret` -/
def scanAddr (curl : Libcurl) (arg : ScanAddrIn) (page : List Chunk) : Option ℤ :=
  if curl.easyInit then
    match inetNtop arg.toScan 20, inetNtop arg.srcip 20 with
    | some toScan, some iface =>
      match curl.setopts (scanOptions toScan iface arg.port) [] with
      | none => some (-1)
      | some handle => if curl.perform handle page = curleOk then some 0 else some 1
    | _, _ => some (-1)
  else none

/-! ## What they accept -/

/-- the whole body -/
def body (page : List Chunk) : Text := (page.map Chunk.bytes).flatten

/-- every piece, as it is read, is as good as the body; if the body lacks the text, one such piece is enough -/
def ChunksAgree (page : List Chunk) : Prop :=
  if strstr (body page) natdaemon then ∀ c ∈ page, strstr c.text natdaemon
  else ∃ c ∈ page, ¬ strstr c.text natdaemon

/-- the callback returns the size of its piece exactly if it finds the text: no size is that of -1 -/
theorem verify_eq_iff (c : Chunk) : verify c 1 c.nmemb = 1 * c.nmemb ↔ strstr c.text natdaemon := by
  unfold verify
  split_ifs with h
  · exact iff_of_true rfl h
  · refine iff_of_false ?_ h
    intro heq
    have hnat := congrArg BitVec.toNat heq
    have hmul : 1 * c.nmemb = c.nmemb := BitVec.one_mul _
    have hsize : c.nmemb.toNat = c.bytes.length := by
      rw [Chunk.nmemb, BitVec.toNat_ofNat]
      exact Nat.mod_eq_of_lt (Nat.lt_of_succ_lt c.fits)
    have hone : (-1 : BitVec 64).toNat = 2 ^ 64 - 1 := rfl
    have hfits := c.fits
    rw [hmul, hsize, hone] at hnat
    omega

theorem Libcurl.Delivers.setopts {curl : Libcurl} (h : curl.Delivers) (options : List CurlOption) (handle : Handle) :
    curl.setopts options handle = some (options.reverse ++ handle) := by
  induction options generalizing handle with
  | nil => rfl
  | cons o options ih => rw [Libcurl.setopts, if_pos (h.setopt o), ih, List.reverse_cons, List.append_assoc]; rfl

/-- options that are all taken are set -/
theorem eq_of_setopts {curl : Libcurl} {options : List CurlOption} {handle handle' : Handle}
    (h : curl.setopts options handle = some handle') : handle' = options.reverse ++ handle := by
  induction options generalizing handle with
  | nil => exact (Option.some.inj h).symm
  | cons o options ih =>
    rw [Libcurl.setopts] at h
    split_ifs at h
    rw [ih h, List.reverse_cons, List.append_assoc]
    rfl

theorem eq_of_setupCurl {curl : Libcurl} {nport : BitVec 16} {srcip : BitVec 32} {handle : Handle}
    (h : setupCurl curl nport srcip = some handle) : handle = (clientOptions nport srcip).reverse ++ [] := by
  unfold setupCurl at h
  split_ifs at h
  exact eq_of_setopts h

/-- there is room for every address -/
theorem inetNtop_eq (addr : BitVec 32) : inetNtop addr 20 = some (inetNtoa addr) := by
  have hpart : ∀ k, (decimal (addr.extractLsb' k 8).toNat).length ≤ 3 := by
    intro k
    exact length_decimal_octet (addr.extractLsb' k 8).isLt
  have h0 := hpart 0
  have h8 := hpart 8
  have h16 := hpart 16
  have h24 := hpart 24
  have hlength : (inetNtoa addr).length < 20 := by
    simp only [inetNtoa, List.length_append, List.length_cons]
    omega
  exact if_pos hlength

/-- **What get_rtt accepts**: a page whose pieces all show the text. -/
theorem getRtt_iff {curl : Libcurl} (hcurl : curl.Delivers) {nport : BitVec 16} {srcip nAddr : BitVec 32}
    {handle : Handle} (hhandle : setupCurl curl nport srcip = some handle) (hAddr : nAddr ≠ -1) (page : List Chunk)
    (start stop : Timespec) (rtt : BitVec 32) :
    (getRtt curl handle nAddr page start stop rtt).1 = 0 ↔ ∀ c ∈ page, strstr c.text natdaemon := by
  obtain rfl := eq_of_setupCurl hhandle
  rw [getRtt, if_neg hAddr, hcurl.setopts]
  have hperform := hcurl.perform (.url (inetNtoa nAddr) :: ((clientOptions nport srcip).reverse ++ [])) page
    writeCallback rfl
  simp only [writeCallback, verify_eq_iff] at hperform
  rw [← hperform]
  simp only [List.reverse_cons, List.reverse_nil, List.nil_append, List.cons_append]
  split_ifs with h
  · exact iff_of_true rfl h
  · exact iff_of_false (by simp) h

/-- **What scan_addr accepts**: the same. -/
theorem scanAddr_iff {curl : Libcurl} (hcurl : curl.Delivers) (arg : ScanAddrIn) (page : List Chunk) :
    scanAddr curl arg page = some 0 ↔ ∀ c ∈ page, strstr c.text natdaemon := by
  have hperform := hcurl.perform
    ((scanOptions (inetNtoa arg.toScan) (inetNtoa arg.srcip) arg.port).reverse ++ []) page pwriteCallback rfl
  simp only [pwriteCallback, verify_eq_iff] at hperform
  rw [← hperform, scanAddr, if_pos hcurl.easyInit, inetNtop_eq, inetNtop_eq]
  simp only [hcurl.setopts]
  split_ifs with h
  · exact iff_of_true rfl h
  · exact iff_of_false (by simp) h

/-- and it always returns something -/
theorem scanAddr_returns {curl : Libcurl} (hcurl : curl.Delivers) (arg : ScanAddrIn) (page : List Chunk) :
    ∃ value, scanAddr curl arg page = some value := by
  rw [scanAddr, if_pos hcurl.easyInit, inetNtop_eq, inetNtop_eq]
  simp only [hcurl.setopts]
  split_ifs
  · exact ⟨0, rfl⟩
  · exact ⟨1, rfl⟩

/-! ## Whether that is right -/

theorem verdict_right_iff (page : List Chunk) :
    ((∀ c ∈ page, strstr c.text natdaemon) ↔ strstr (body page) natdaemon) ↔ ChunksAgree page := by
  unfold ChunksAgree
  split_ifs with h
  · exact ⟨fun hiff => hiff.2 h, fun hall => iff_of_true hall h⟩
  · rw [iff_false_right h]
    simp only [not_forall, exists_prop]

/-- **When the page is judged right.** For every page and every way to cut it, and whatever memory holds behind the
pieces: get_rtt and scan_addr succeed just when the page has the text, if and only if the pieces agree with it. -/
theorem page_verified_iff (curl : Libcurl) (hcurl : curl.Delivers) (page : List Chunk) (nport : BitVec 16)
    (srcip nAddr : BitVec 32) (hAddr : nAddr ≠ -1) (handle : Handle)
    (hhandle : setupCurl curl nport srcip = some handle) (start stop : Timespec) (rtt : BitVec 32) (arg : ScanAddrIn) :
    (((getRtt curl handle nAddr page start stop rtt).1 = 0 ↔ strstr (body page) natdaemon) ↔ ChunksAgree page) ∧
    ((scanAddr curl arg page = some 0 ↔ strstr (body page) natdaemon) ↔ ChunksAgree page) := by
  refine ⟨?_, ?_⟩
  · rw [getRtt_iff hcurl hhandle hAddr]
    exact verdict_right_iff page
  · rw [scanAddr_iff hcurl]
    exact verdict_right_iff page

/-- a piece with a zero behind it shows no more than the body has -/
theorem strstr_body {page : List Chunk} {c : Chunk} (hc : c ∈ page) (hbehind : c.behind = [])
    (h : strstr c.text natdaemon) : strstr (body page) natdaemon := by
  rw [strstr_iff] at h ⊢
  have htext : c.text <+: c.bytes := by
    rw [Chunk.text, hbehind, List.append_nil]
    exact List.takeWhile_prefix _
  have hbody : c.bytes <:+: body page := List.infix_of_mem_flatten (List.mem_map_of_mem hc)
  exact h.trans (htext.isInfix.trans hbody)

/-- **With a zero behind each piece** the pieces agree with the page when it is not empty and, if it has the text, each
of them has it before its first zero. -/
theorem chunksAgree_iff_of_terminated {page : List Chunk} (hbehind : ∀ c ∈ page, c.behind = []) :
    ChunksAgree page ↔
      page ≠ [] ∧ (strstr (body page) natdaemon → ∀ c ∈ page, strstr (cString c.bytes) natdaemon) := by
  have htext : ∀ c ∈ page, c.text = cString c.bytes := by
    intro c hc
    rw [Chunk.text, hbehind c hc, List.append_nil]
  unfold ChunksAgree
  split_ifs with h
  · have hpage : page ≠ [] := by
      rintro rfl
      exact absurd h (by decide)
    constructor
    · intro hall
      refine ⟨hpage, fun _ c hc => ?_⟩
      rw [← htext c hc]
      exact hall c hc
    · intro hall c hc
      rw [htext c hc]
      exact hall.2 h c hc
  · constructor
    · intro hsome
      obtain ⟨c, hc, -⟩ := hsome
      exact ⟨List.ne_nil_of_mem hc, fun hbody => absurd hbody h⟩
    · intro hall
      obtain ⟨c, hc⟩ := List.exists_mem_of_ne_nil page hall.1
      exact ⟨c, hc, fun hshown => h (strstr_body hc (hbehind c hc) hshown)⟩

/-! ## A libcurl that aborts -/

/-- one piece after the other; 23 is CURLE_WRITE_ERROR -/
def transfer (f : Callback) : List Chunk → CurlCode
  | [] => curleOk
  | c :: page => if f c 1 c.nmemb = 1 * c.nmemb then transfer f page else 23

def aborting : Libcurl where
  easyInit := true
  setopt _ := curleOk
  perform handle page := (handle.findSome? CurlOption.callback).elim curleOk (transfer · page)

theorem transfer_eq_ok (f : Callback) (page : List Chunk) :
    transfer f page = curleOk ↔ ∀ c ∈ page, f c 1 c.nmemb = 1 * c.nmemb := by
  induction page with
  | nil => simp [transfer]
  | cons c page ih =>
    rw [transfer, List.forall_mem_cons]
    split_ifs with h
    · rw [ih, and_iff_right h]
    · exact iff_of_false (by decide) fun hall => h hall.1

theorem aborting_delivers : aborting.Delivers where
  easyInit := rfl
  setopt _ := rfl
  perform handle page f hf := by
    simp only [aborting, hf, Option.elim_some]
    exact transfer_eq_ok f page

/-- a page in one piece -/
def wholePage : List Chunk := [⟨"natdaemon".toList, [], by decide, by decide⟩]

/-- and the same page in two -/
def cutPage : List Chunk := [⟨"natd".toList, [], by decide, by decide⟩, ⟨"aemon".toList, [], by decide, by decide⟩]

/-- and one whose pieces both show the text: the second with what memory holds behind it -/
def luckyPage : List Chunk :=
  [⟨"natdaemon runs".toList, [], by decide, by decide⟩, ⟨"as natd".toList, "aemon".toList, by decide, by decide⟩]

def someHandle : Handle := (clientOptions 0x5000 0x110b040a).reverse ++ []

def somePort : ScanAddrIn := ⟨0xc10b040a, 80, 0x110b040a⟩

instance (page : List Chunk) : Decidable (ChunksAgree page) := by unfold ChunksAgree; infer_instance

theorem lucky_page_verified :
    ((getRtt aborting someHandle 0xc10b040a luckyPage ⟨0, 0⟩ ⟨0, 0⟩ 0).1 = 0 ↔ strstr (body luckyPage) natdaemon) ∧
      (scanAddr aborting somePort luckyPage = some 0 ↔ strstr (body luckyPage) natdaemon) := by
  have hagree : ChunksAgree luckyPage := by decide
  obtain ⟨hclient, hscanner⟩ := page_verified_iff aborting aborting_delivers luckyPage 0x5000 0x110b040a 0xc10b040a
    (by decide) someHandle rfl ⟨0, 0⟩ ⟨0, 0⟩ 0 somePort
  exact ⟨hclient.2 hagree, hscanner.2 hagree⟩

/-- **A page that is refused because it comes in two pieces**, and an empty one that is accepted. -/
theorem cut_page_refused :
    (strstr (body cutPage) natdaemon ∧
      (getRtt aborting someHandle 0xc10b040a cutPage ⟨0, 0⟩ ⟨0, 0⟩ 0).1 ≠ 0 ∧
        scanAddr aborting somePort cutPage ≠ some 0) ∧
    (¬ strstr (body []) natdaemon ∧ (getRtt aborting someHandle 0xc10b040a [] ⟨0, 0⟩ ⟨0, 0⟩ 0).1 = 0 ∧
      scanAddr aborting somePort [] = some 0) := by
  have hhandle : setupCurl aborting 0x5000 0x110b040a = some someHandle := rfl
  have hcut : ¬ ∀ c ∈ cutPage, strstr c.text natdaemon := by decide
  refine ⟨⟨by decide, ?_, ?_⟩, by decide, ?_, ?_⟩
  · rwa [ne_eq, getRtt_iff aborting_delivers hhandle (by decide)]
  · rwa [ne_eq, scanAddr_iff aborting_delivers]
  · rw [getRtt_iff aborting_delivers hhandle (by decide)]
    nofun
  · rw [scanAddr_iff aborting_delivers]
    nofun

end NetSec.Client
