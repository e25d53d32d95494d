import FasterConfig.Captive
import FasterConfig.HttpdVisit

/-!
# The visit of a client

The rest of the way from the file to the client: a client that asks the web
server for a URL is led to the URL of the file, with the address of the gateway
and the port behind it, and last the URL that it has asked for, cleaned, from
which the other server can read it back.
-/

set_option autoImplicit false

namespace FasterConfig.CaptiveVisit
open FasterConfig.Octets FasterConfig.Strings FasterConfig.ConfigFile FasterConfig.ConfigLines
open FasterConfig.ConfigFields FasterConfig.ConfigText FasterConfig.Captive
open FasterConfig.HttpdClient FasterConfig.HttpdVisit
open FasterConfig.HttpdReadRequest FasterConfig.HttpdThread FasterConfig.HttpdRedirect
open FasterConfig.HttpdFraming (plainEnvironment localhost)
open FasterConfig.HttpdRequest (readTarget)
open FasterConfig.HttpdResponse (Environment Inline decimal)
open FasterConfig.HttpdEscape (httpdEscape)
open FasterConfig.HttpdUrlCodec (replaceTriples replaceTriples_escape)

local instance (priority := 10000) decidableText (p : UInt8 → Prop) [DecidablePred p] (s : Text) :
    Decidable (∀ c ∈ s, p c) := List.decidableBAll p s

structure Signs where
  ReUrl : Text
  gatewayIP : Text
  HttpPort : ℤ

structure Points (file : Text) (x : Signs) : Prop where
  ReUrl : ∃ l, (own StrField.ReUrl.key file).getLast? = some l ∧ secondWord l = some x.ReUrl
  gatewayIP : ∃ l, (own StrField.gatewayIP.key file).getLast? = some l ∧ secondWord l = some x.gatewayIP
  HttpPort : ∃ l, (own IntField.HttpPort.key file).getLast? = some l ∧
    (secondWord l).bind numeral = some x.HttpPort

/-- The server as `do_httpServer` sets it up. -/
structure SetUp (env : Environment) (s : Fields) : Prop where
  htmlreurl : env.htmlreurl.val = s.strs .ReUrl
  gwAddress : env.gwAddress.val = s.strs .gatewayIP
  gwPort : env.gwPort = (s.ints .HttpPort).toInt

def Signs.front (x : Signs) (clientAddr : Text) (mac : Option Inline) : Text :=
  x.ReUrl ++ ascii "/?gw_address=" ++ x.gatewayIP ++ ascii "&gw_port=" ++ decimal x.HttpPort ++
    ascii "&ip=" ++ clientAddr ++ (mac.elim [] fun mac => ascii "&mac=" ++ mac.val) ++ ascii "&url="

/-- From the file and the URL that the client asks for to the URL that it is led to, of which the line
of the response holds 969 octets. -/
theorem visitor_led (file : Text) (h0 : 0 ∉ file) (hc : Clear file) (x : Signs) (h : Points file x)
    (val : ℕ → IntField → Int32) (buf : CArray bufSize) (s : Fields) :
    ∃ s', readConfigFile val file buf s = some s' ∧
      ∀ env, SetUp env s' → ∀ startTime clientAddr peer (v : Visit), v.Elsewhere → v.Fits env clientAddr →
        peer.net.stream = v.text →
          led env startTime clientAddr peer =
            some ((x.front clientAddr (env.arpGet clientAddr) ++ httpdEscape v.url).take 969) ∧
          replaceTriples (httpdEscape v.url) = v.url ∧ (v.Tidy → v.url = v.asked) := by
  obtain ⟨s', hread, ht⟩ := file_taken file h0 hc val buf s
  refine ⟨s', hread, fun env he startTime clientAddr peer v hv hf hp =>
    ⟨?_, replaceTriples_escape v.url, v.url_asked⟩⟩
  have hfront : fragmentHead env clientAddr = x.front clientAddr (env.arpGet clientAddr) := by
    rw [fragmentHead, Signs.front, he.htmlreurl, he.gwAddress, he.gwPort,
      taken_str file s s' ht .ReUrl _ h.ReUrl, taken_str file s s' ht .gatewayIP _ h.gatewayIP,
      taken_int file s s' ht .HttpPort _ h.HttpPort]
  rw [v.led_on hv env startTime clientAddr hf peer hp, hfront]

/-! ## With the file that is shipped -/

def shippedSigns : Signs := ⟨ascii "http://192.168.100.1/fasterconfig", ascii "192.168.100.1", 2049⟩

theorem shipped_points : Points (fileText shippedItems) shippedSigns where
  ReUrl := own_str shippedItems .ReUrl _ (by decide)
  gatewayIP := own_str shippedItems .gatewayIP _ (by decide)
  HttpPort := own_int shippedItems .HttpPort 2049 (by decide)

def searchLine : RequestLine where
  method := ascii "GET"
  path := ascii "/search"
  query := some (ascii "q=lean")
  behind := ascii " HTTP/1.1"
  known := get_known
  plain := by decide
  printable := by decide
  nonempty := by decide
  short := by decide
  ends := version_behind

def searchVisit : Visit where
  line := searchLine
  host := ascii "example.org"
  fields := []
  line_text := by decide
  line_short := by decide
  host_text := by decide
  host_short := by decide
  fields_plain _ h := absurd h List.not_mem_nil

theorem search_tidy : searchVisit.Tidy := ⟨(clean_iff_free _).mp (by decide), by decide⟩

theorem search_read : (readTarget searchLine.target).path = ascii "/search" ∧
    (readTarget searchLine.target).vars = [⟨ascii "q", ascii "lean", []⟩] := by decide +kernel

theorem search_elsewhere : searchVisit.Elsewhere :=
  ⟨[], ascii "search", search_read.1, by decide, by decide⟩

theorem search_fits : searchVisit.Fits plainEnvironment localhost := by
  have hvars : (readTarget searchVisit.line.target).vars = [⟨ascii "q", ascii "lean", []⟩] := search_read.2
  rw [Visit.Fits, hvars]
  exact ⟨by decide +kernel, by decide +kernel⟩

theorem shipped_visitor_led :
    led plainEnvironment 0 localhost ⟨[], fun _ => 0, sending searchVisit.text⟩ =
      some ((shippedSigns.front (ascii "127.0.0.1") none ++
        httpdEscape (ascii "http://example.org/search?q=lean")).take 969) := by
  obtain ⟨s', hread, hled⟩ := visitor_led (fileText shippedItems) (fileText_nulless shippedItems)
    (clear_written shippedItems shipped_ne_nil) shippedSigns shipped_points (fun _ _ => 0)
    (CArray.zero bufSize) ⟨fun _ => 0, fun _ => []⟩
  have hs : s' = meant shippedItems ⟨fun _ => 0, fun _ => []⟩ := by
    rw [read_run (fileText shippedItems) (fileText_nulless shippedItems)
      (fileText_ne_nil shippedItems shipped_ne_nil) (short_lines shippedItems), run_written] at hread
    exact (Option.some.inj hread).symm
  have hsetup : SetUp plainEnvironment s' := by
    rw [hs]
    exact ⟨by decide, by decide, by decide⟩
  obtain ⟨hgot, -, hasked⟩ := hled plainEnvironment hsetup 0 localhost
    ⟨[], fun _ => 0, sending searchVisit.text⟩ searchVisit search_elsewhere search_fits (sending_stream _)
  rw [hgot, hasked search_tidy]
  rfl

end FasterConfig.CaptiveVisit
