import Dcfs.Sessions.Credentials
import Dcfs.Sessions.Ended

namespace Dcfs.Sessions

open Text

/-- One of the two goes on behind the end of the other with NUL bytes only, a multiple of 256 of them. -/
def Padded (a b : Bytes) : Prop :=
  ∃ n, 0 < n ∧ (a = b ++ List.replicate (256 * n) 0 ∨ b = a ++ List.replicate (256 * n) 0)

theorem Padded.symm {a b : Bytes} (h : Padded a b) : Padded b a := by
  obtain ⟨n, hn, h⟩ := h
  exact ⟨n, hn, h.symm⟩

theorem Padded.ne {a b : Bytes} (h : Padded a b) : a ≠ b := by
  rintro rfl
  obtain ⟨n, hn, h | h⟩ := h <;>
  · have hlen := congrArg List.length h
    rw [List.length_append, List.length_replicate] at hlen
    omega

theorem xor_narrowed (m n : ℕ) : UInt8.ofNat (m ^^^ n) = 0 ↔ m % 256 = n % 256 := by
  rw [UInt8.ofNat_xor, UInt8.xor_eq_zero_iff, ← UInt8.toNat_inj, UInt8.toNat_ofNat', UInt8.toNat_ofNat']

theorem constantTimeEq_iff (a b : Bytes) :
    constantTimeEq a b = true ↔ a.length % 256 = b.length % 256 ∧ ∀ i, a.getD i 0 = b.getD i 0 := by
  constructor
  · intro h
    have hget := getD_of_constantTimeEq h
    rw [constantTimeEq, beq_iff_eq, foldl_or_eq_zero, xor_narrowed] at h
    exact ⟨h.1, hget⟩
  · rintro ⟨hlen, hget⟩
    rw [constantTimeEq, beq_iff_eq, foldl_or_eq_zero, xor_narrowed]
    refine ⟨hlen, fun i _ => ?_⟩
    rw [hget i]
    exact UInt8.xor_self

theorem getD_append_zeros (b : Bytes) (n i : ℕ) : (b ++ List.replicate n 0).getD i 0 = b.getD i 0 := by
  by_cases hi : i < b.length
  · rw [List.getD_append _ _ _ _ hi]
  · rw [List.getD_append_right _ _ _ _ (not_lt.mp hi), List.getD_eq_default b _ (not_lt.mp hi)]
    by_cases hn : i - b.length < n
    · exact List.getD_replicate 0 hn
    · apply List.getD_eq_default
      simpa using hn

theorem padded_or_eq {a b : Bytes} (hlen : b.length ≤ a.length) (hmod : a.length % 256 = b.length % 256)
    (h : ∀ i, a.getD i 0 = b.getD i 0) : a = b ∨ Padded a b := by
  have ha := append_zeros_of_getD hlen h
  obtain ⟨n, hn⟩ : ∃ n, a.length - b.length = 256 * n := ⟨(a.length - b.length) / 256, by omega⟩
  rw [hn] at ha
  by_cases hzero : n = 0
  · left
    simpa [hzero] using ha
  · right
    exact ⟨n, Nat.pos_of_ne_zero hzero, .inl ha⟩

theorem constantTimeEq_padded {a b : Bytes} (h : Padded a b) : constantTimeEq a b = true := by
  rw [constantTimeEq_iff]
  obtain ⟨n, -, rfl | rfl⟩ := h
  · refine ⟨?_, getD_append_zeros b _⟩
    rw [List.length_append, List.length_replicate]
    omega
  · refine ⟨?_, fun i => (getD_append_zeros a _ i).symm⟩
    rw [List.length_append, List.length_replicate]
    omega

theorem constantTimeEq_eq_or (a b : Bytes) : constantTimeEq a b = true ↔ a = b ∨ Padded a b := by
  constructor
  · intro h
    obtain ⟨hmod, hget⟩ := (constantTimeEq_iff a b).mp h
    rcases le_total b.length a.length with hlen | hlen
    · exact padded_or_eq hlen hmod hget
    · exact (padded_or_eq hlen hmod.symm fun i => (hget i).symm).imp Eq.symm Padded.symm
  · rintro (rfl | h)
    · exact (constantTimeEq_iff a a).mpr ⟨rfl, fun _ => rfl⟩
    · exact constantTimeEq_padded h

theorem tokenMatches_eq_or (presented expected : Chars) : tokenMatches presented expected = true
    ↔ presented = expected ∨ Padded (asBytes presented) (asBytes expected) := by
  rw [tokenMatches, constantTimeEq_eq_or, asBytes_injective.eq_iff]

theorem eq_test_iff {p q r : Prop} (h : p ↔ q ∨ r) (hne : r → ¬ q) : (p ↔ q) ↔ ¬ r := by
  constructor
  · intro hpq hr
    exact hne hr (hpq.mp (h.mpr (.inr hr)))
  · intro hr
    rw [h, or_iff_left hr]

def Service.InSession (s : Service) (w : World) (r : HttpRequest) : Prop :=
  r.presented ≠ [] ∧ ∃ record, w.findSession (s.hashToken r.presented) = .ok record

theorem Service.requireBootstrapToken_eq_none {s : Service} {expected : Chars} (h : s.apiToken = some expected)
    (r : HttpRequest) : s.requireBootstrapToken r = none ↔ tokenMatches r.presented expected = true := by
  simp [requireBootstrapToken, h]

theorem Service.requireToken_eq_none {s : Service} {expected : Chars} (h : s.apiToken = some expected) (w : World)
    (r : HttpRequest) :
    s.requireToken w r = none ↔ tokenMatches r.presented expected = true ∨ s.InSession w r := by
  simp only [requireToken, h, InSession]
  by_cases hmatch : tokenMatches r.presented expected = true
  · simp [hmatch]
  · by_cases hempty : r.presented = []
    · simp [hempty]
    · cases w.findSession (s.hashToken r.presented) <;> simp [hmatch, hempty]

theorem Service.not_inSession_fresh (s : Service) (r : HttpRequest) : ¬ s.InSession (World.fresh 0) r := by
  rintro ⟨-, record, h⟩
  cases h

theorem tokenMatches_iff (presented expected : Chars) :
    (tokenMatches presented expected = true ↔ presented = expected) ↔ ¬ Padded (asBytes presented) (asBytes expected) :=
  eq_test_iff (tokenMatches_eq_or presented expected) fun hpadded heq => hpadded.ne (congrArg asBytes heq)

theorem token_accepted_iff (a b : Bytes) (presented expected : Chars) :
    ((constantTimeEq a b = true ↔ a = b) ↔ ¬ Padded a b)
    ∧ ((tokenMatches presented expected = true ↔ presented = expected)
      ↔ ¬ Padded (asBytes presented) (asBytes expected))
    ∧ ∀ (s : Service) (r : HttpRequest), s.apiToken = some expected →
      ((s.requireBootstrapToken r = none ↔ r.presented = expected)
        ↔ ¬ Padded (asBytes r.presented) (asBytes expected))
      ∧ ((∀ w, s.requireToken w r = none ↔ r.presented = expected ∨ s.InSession w r)
        ↔ ¬ Padded (asBytes r.presented) (asBytes expected)) := by
  refine ⟨eq_test_iff (constantTimeEq_eq_or a b) Padded.ne, tokenMatches_iff presented expected, fun s r h => ⟨?_, ?_⟩⟩
  · rw [s.requireBootstrapToken_eq_none h]
    exact tokenMatches_iff r.presented expected
  · rw [← tokenMatches_iff]
    constructor
    · intro hall
      -- In a server without sessions only the bootstrap credential is left.
      have hfresh := hall (World.fresh 0)
      rw [Service.requireToken_eq_none h] at hfresh
      simpa [s.not_inSession_fresh r] using hfresh
    · intro hmatch w
      rw [Service.requireToken_eq_none h, hmatch]

theorem token_accepted_first : sampleService.apiToken = some bootstrap
    ∧ ((sampleService.requireBootstrapToken fetchRequest = none ↔ fetchRequest.presented = bootstrap)
      ↔ ¬ Padded (asBytes fetchRequest.presented) (asBytes bootstrap)) :=
  ⟨rfl, ((token_accepted_iff [] [] [] bootstrap).2.2 sampleService fetchRequest rfl).1⟩

def Visible (text : Chars) : Prop := ∀ c ∈ text, 32 ≤ c.toNat ∧ c.toNat < 127

instance (text : Chars) : Decidable (Visible text) := List.decidableBAll _ text

theorem asBytes_visible {text : Chars} (h : Visible text) : asBytes text = text.map fun c => UInt8.ofNat c.toNat := by
  induction text with
  | nil => rfl
  | cons c rest ih =>
    have hc := h c List.mem_cons_self
    have hsize : c.utf8Size = 1 := by
      rw [Char.utf8Size_eq_one_iff, UInt32.le_iff_toNat_le]
      change c.toNat ≤ 127
      omega
    have hrest : asBytes rest = rest.map fun c => UInt8.ofNat c.toNat :=
      ih fun d hd => h d (List.mem_cons_of_mem c hd)
    rw [asBytes] at hrest ⊢
    rw [List.flatMap_cons, hrest, String.utf8EncodeChar_eq_singleton hsize]
    rfl

theorem toStr_asBytes {text : Chars} (h : Visible text) : toStr (asBytes text) = some text := by
  rw [asBytes_visible h, toStr, if_pos]
  · rw [List.map_map]
    refine congrArg some ((List.map_congr_left fun c hc => ?_).trans (List.map_id text))
    have hbyte : (UInt8.ofNat c.toNat).toNat = c.toNat := UInt8.toNat_ofNat_of_lt' (lt_trans (h c hc).2 (by decide))
    rw [Function.comp_apply, hbyte, Char.ofNat_toNat, id]
  · rw [List.all_map, List.all_eq_true]
    intro c hc
    have hc := h c hc
    have hbyte : (UInt8.ofNat c.toNat).toNat = c.toNat := UInt8.toNat_ofNat_of_lt' (lt_trans hc.2 (by decide))
    simp only [Function.comp_apply, Bool.or_eq_true, Bool.and_eq_true, decide_eq_true_eq, UInt8.le_iff_toNat_le,
      UInt8.lt_iff_toNat_lt, hbyte]
    exact .inl hc

theorem base64Char_visible (value : ℕ) : 32 ≤ (base64Char value).toNat ∧ (base64Char value).toNat < 127 := by
  have hdigits : Visible base64Digits := by decide
  rw [base64Char]
  by_cases h : value < base64Digits.length
  · rw [List.getD_eq_getElem _ _ h]
    exact hdigits _ (List.getElem_mem h)
  · rw [List.getD_eq_default _ _ (not_lt.mp h)]
    decide

theorem Visible.cons {value : ℕ} {text : Chars} (h : Visible text) : Visible (base64Char value :: text) := by
  intro c hc
  rcases List.mem_cons.mp hc with rfl | hc
  · exact base64Char_visible value
  · exact h c hc

theorem base64Encode_visible (padded : Bool) (bytes : Bytes) : Visible (base64Encode padded bytes) := by
  have hnil : Visible [] := fun c hc => absurd hc List.not_mem_nil
  have hone : Visible ['='] := by decide
  have htwo : Visible ['=', '='] := by decide
  induction bytes using base64Encode.induct with
  | case1 => exact hnil
  | case2 a =>
    rw [base64Encode]
    cases padded
    · exact hnil.cons.cons
    · exact htwo.cons.cons
  | case3 a b =>
    rw [base64Encode]
    cases padded
    · exact hnil.cons.cons.cons
    · exact hone.cons.cons.cons
  | case4 a b c rest ih =>
    rw [base64Encode]
    exact ih.cons.cons.cons.cons

def basicRequest (token : Chars) : HttpRequest where
  method := .get
  path := ["api", "v1", "fs"]
  headers := [("authorization", asBytes ("Basic ".toList ++ base64Encode true (asBytes (':' :: token))))]
  body := []

theorem basicRequest_presented (token : Chars) : (basicRequest token).presented = token := by
  have hvisible : Visible ("Basic ".toList ++ base64Encode true (asBytes (':' :: token))) := by
    intro c hc
    rcases List.mem_append.mp hc with hc | hc
    · exact (show Visible "Basic ".toList by decide) c hc
    · exact base64Encode_visible true _ c hc
  have hheader : (basicRequest token).header "authorization" =
      toStr (asBytes ("Basic ".toList ++ base64Encode true (asBytes (':' :: token)))) := rfl
  have htoken := presentedToken_basic (show ':' ∉ ([] : Chars) from List.not_mem_nil)
    (base64Decode_encode true (asBytes (':' :: token)))
  rw [HttpRequest.presented, hheader, toStr_asBytes hvisible, Option.bind_some, htoken]
  rfl

theorem asBytes_nuls (n : ℕ) : asBytes (List.replicate n '\x00') = List.replicate n 0 := by
  induction n with
  | zero => rfl
  | succ n ih =>
    rw [asBytes] at ih ⊢
    rw [List.replicate_succ, List.replicate_succ, List.flatMap_cons, ih]
    rfl

def paddedToken : Chars := bootstrap ++ List.replicate 256 '\x00'

theorem paddedToken_padded : Padded (asBytes paddedToken) (asBytes bootstrap) := by
  refine ⟨1, by omega, .inl ?_⟩
  rw [paddedToken, asBytes, List.flatMap_append]
  exact congrArg (asBytes bootstrap ++ ·) (asBytes_nuls 256)

theorem padded_token_accepted : constantTimeEq (List.replicate 256 0) [] = true
    ∧ sampleService.apiToken = some bootstrap ∧ (basicRequest paddedToken).presented ≠ bootstrap
    ∧ sampleService.requireBootstrapToken (basicRequest paddedToken) = none
    ∧ sampleService.requireToken (World.fresh 0) (basicRequest paddedToken) = none := by
  have hmatch : tokenMatches (basicRequest paddedToken).presented bootstrap = true := by
    rw [basicRequest_presented, tokenMatches_eq_or]
    exact .inr paddedToken_padded
  refine ⟨constantTimeEq_padded ⟨1, by omega, .inl rfl⟩, rfl, ?_, ?_, ?_⟩
  · rw [basicRequest_presented]
    exact fun heq => paddedToken_padded.ne (congrArg asBytes heq)
  · exact (Service.requireBootstrapToken_eq_none rfl _).mpr hmatch
  · exact (Service.requireToken_eq_none rfl _ _).mpr (.inl hmatch)

end Dcfs.Sessions
