import IcsDeception.Decoy.Session

/-!
# Passwords and the log

Two clients that send the same, at the same times, but for the characters of the second
line. The second line is the password, and by default two such clients leave the same log,
unless the line feed of the first line arrives after its carriage return has been read: then
the empty line between them is taken for the password, and the password for a command.
-/

namespace IcsDeception.Decoy

open Text Json

/-! ## Sending -/

namespace Conn

theorem sendAll_eq_true {n : Nat} {sends : Nat → Bool} (h : ∀ i < n, sends i = true)
    (arrivals : List Arrival) :
    sendAll n ⟨arrivals, sends⟩ = (true, ⟨arrivals, fun i => sends (i + n)⟩) := by
  induction n generalizing sends with
  | zero => rfl
  | succ n ih =>
      have hrest : ∀ i < n, sends (i + 1) = true := fun i hi => h (i + 1) (Nat.succ_lt_succ hi)
      rw [sendAll, if_pos (h 0 (Nat.succ_pos n))]
      exact (ih hrest).trans (by simp only [Nat.add_assoc])

theorem sendAll_eq_false {n : Nat} {sends : Nat → Bool} (h : ¬ ∀ i < n, sends i = true)
    (arrivals : List Arrival) : (sendAll n ⟨arrivals, sends⟩).1 = false := by
  induction n generalizing sends with
  | zero => exact absurd (fun _ hi => absurd hi (Nat.not_lt_zero _)) h
  | succ n ih =>
      rw [sendAll]
      split_ifs with hfirst
      · apply ih
        intro hrest
        apply h
        intro i hi
        cases i with
        | zero => exact hfirst
        | succ i => exact hrest i (Nat.lt_of_succ_lt_succ hi)
      · rfl

end Conn

variable (svc : Service) (peer : Peer) {sends : Nat → Bool} {first : List Arrival}

/-! ## The login -/

theorem IsLine.readLine_append (hfirst : IsLine first) (tail : List Arrival) :
    readLine (first ++ tail) = { readLine first with rest := (readLine first).rest ++ tail } := by
  obtain ⟨init, early, rfl⟩ := hfirst.exists_lf
  rw [List.append_assoc]
  exact readLineFrom_append [] init early tail

/-- The first line is accepted, and the password is asked for. -/
def Asked (sends : Nat → Bool) (first : List Arrival) : Prop :=
  (∀ i < svc.greetings + 1, sends i = true) ∧ (readLine first).status = .ok

/-- Without a name a session ends, and what follows the first line plays no part. -/
theorem login_refused (hfirst : IsLine first) (h : ¬ Asked svc sends first) :
    ∃ events reason, ∀ tail, svc.login peer ⟨first ++ tail, sends⟩ = (events, .refused reason) := by
  by_cases hgreet : ∀ i < svc.greetings, sends i = true
  · by_cases hok : (readLine first).status = .ok
    · have hprompt : sends svc.greetings = false := by
        by_contra hsent
        apply h
        refine ⟨fun i hi => ?_, hok⟩
        rcases Nat.lt_succ_iff_lt_or_eq.mp hi with hlt | rfl
        · exact hgreet i hlt
        · simpa using hsent
      refine ⟨svc.recordPeerIdentification peer (readLine first).out, lit "send_failed",
        fun tail => ?_⟩
      simp [Service.login, Conn.sendAll_eq_true hgreet, hfirst.readLine_append, hok, hprompt]
    · refine ⟨svc.recordPeerIdentification peer (readLine first).out,
        Service.loginReason (readLine first).status, fun tail => ?_⟩
      simp [Service.login, Conn.sendAll_eq_true hgreet, hfirst.readLine_append, hok]
  · refine ⟨[], lit "send_failed", fun tail => ?_⟩
    have hfalse := Conn.sendAll_eq_false hgreet (first ++ tail)
    rw [Service.login]
    generalize Conn.sendAll svc.greetings ⟨first ++ tail, sends⟩ = r at hfalse
    obtain ⟨b, c⟩ := r
    obtain rfl : b = false := hfalse
    rfl

/-- With a name the next line is read as the password. -/
theorem login_asked (hfirst : IsLine first) (h : Asked svc sends first) (tail : List Arrival) :
    svc.login peer ⟨first ++ tail, sends⟩ =
      (svc.recordPeerIdentification peer (readLine first).out,
        if (readLine ((readLine first).rest ++ tail)).status ≠ .ok then
          .refused (Service.loginReason (readLine ((readLine first).rest ++ tail)).status)
        else
          .complete (readLine first).out (readLine ((readLine first).rest ++ tail)).out
            ⟨(readLine ((readLine first).rest ++ tail)).rest,
              fun i => sends (i + (svc.greetings + 1))⟩) := by
  have hgreet : ∀ i < svc.greetings, sends i = true := fun i hi => h.1 i (Nat.lt_succ_of_lt hi)
  have hprompt : sends svc.greetings = true := h.1 _ (Nat.lt_succ_self _)
  have hshift : (fun i => sends (i + 1 + svc.greetings)) =
      fun i => sends (i + (svc.greetings + 1)) := by
    funext i
    exact congrArg sends (by omega)
  simp only [Service.login, Conn.sendAll_eq_true hgreet, hfirst.readLine_append, h.2, ne_eq,
    not_true_eq_false, if_false, Nat.zero_add, hprompt, Bool.true_eq_false, Conn.sent, Conn.after,
    hshift]

/-! ## The second line -/

variable {second second' rest : List Arrival}

theorem readLine_alike (halike : List.Forall₂ Arrival.Alike second second') (hrest : Ended rest) :
    (readLine (second ++ rest)).status = (readLine (second' ++ rest)).status ∧
      ((readLine (second ++ rest)).status = .ok → ∃ left,
        readLine (second ++ rest) = ⟨.ok, bytesOf second, left⟩ ∧
        readLine (second' ++ rest) = ⟨.ok, bytesOf second', left⟩) :=
  readLineFrom_alike halike hrest rfl

theorem eq_of_alike (halike : List.Forall₂ Arrival.Alike second second')
    (h : bytesOf second = bytesOf second') : second = second' := by
  induction halike with
  | nil => rfl
  | cons hab _ ih =>
      cases hab with
      | typed early hc hd =>
          obtain ⟨rfl, htail⟩ := List.cons.inj h
          rw [ih htail]
      | interrupted | timedOut | failed => rw [ih h]

/-- A second line that is not finished is not logged as a command. -/
theorem commands_alike (halike : List.Forall₂ Arrival.Alike second second') (hrest : Ended rest)
    (h : (readLine (second ++ rest)).status ≠ .ok) (fuel count : Nat) :
    svc.commands peer fuel count ⟨second ++ rest, sends⟩ =
      svc.commands peer fuel count ⟨second' ++ rest, sends⟩ := by
  obtain ⟨hstatus, -⟩ := readLine_alike halike hrest
  cases fuel with
  | zero => rfl
  | succ fuel =>
      rw [Service.commands, Service.commands]
      simp only [← hstatus]
      cases hread : (readLine (second ++ rest)).status with
      | ok => exact absurd hread h
      | closed | timeout | error | tooLong => rfl

/-- A second line that is finished is logged when it is read as a command. -/
theorem commands_logged (hok : (readLine (second ++ rest)).status = .ok)
    (hne : (readLine (second ++ rest)).out ≠ []) (fuel : Nat) :
    ∃ more, (svc.commands peer (fuel + 1) 0 ⟨second ++ rest, sends⟩).1 =
      svc.event peer "_command"
        [.str (lit "command") (readLine (second ++ rest)).out, .num (lit "sequence") 1] :: more := by
  rw [Service.commands]
  simp only [hok, if_neg hne]
  rw [if_neg (by decide)]
  split_ifs
  · exact ⟨[], rfl⟩
  · exact ⟨_, rfl⟩
  · exact ⟨[], rfl⟩

/-! ## Two sessions -/

/-- The second line is taken for a command: the first line left its line feed behind, which
was read as the password, and the session went on to read the second line. -/
structure Misread (sends : Nat → Bool) (first second rest : List Arrival) : Prop where
  sent : ∀ i < svc.greetings + 2, sends i = true
  accepted : (readLine first).status = .ok
  leftover : (readLine (readLine first).rest).status = .ok
  command : (readLine (second ++ rest)).status = .ok

theorem session_congr {captureCredentials : Bool} {c c' : Conn}
    (hlogged : (svc.login peer c).1 = (svc.login peer c').1)
    (hserved : svc.serve peer captureCredentials (svc.login peer c).2 =
      svc.serve peer captureCredentials (svc.login peer c').2) :
    svc.session peer captureCredentials c = svc.session peer captureCredentials c' := by
  simp only [Service.session, hlogged, hserved]

/-- A password that is read as one leaves its length and its shape. -/
theorem serve_alike {username password password' : Bytes} {c : Conn}
    (hlength : password.length = password'.length)
    (hshape : passwordShape password = passwordShape password') :
    svc.serve peer false (.complete username password c) =
      svc.serve peer false (.complete username password' c) := by
  simp only [Service.serve, Service.logLoginAttempt, hlength, hshape, Bool.false_eq_true, if_false]

/-- The line feed that the first line left is taken for the password. -/
theorem readLine_leftover {gap : List Arrival} (hgap : ∀ a ∈ gap, a.value? = none) {early : Bool}
    (hok : (readLine (gap ++ [.byte Utf8.lfByte early])).status = .ok) (tail : List Arrival) :
    readLine (gap ++ [.byte Utf8.lfByte early] ++ tail) = ⟨.ok, [], tail⟩ := by
  rw [List.append_assoc, List.singleton_append, readLine, readLineFrom_append,
    readLineFrom_gap hgap hok]
  rfl

/-- When the second line is not taken for a command, the log does not tell which of two
passwords of one length and shape it is. -/
theorem session_hidden (hfirst : IsLine first)
    (halike : List.Forall₂ Arrival.Alike second second') (hrest : Ended rest)
    (hshape : passwordShape (bytesOf second) = passwordShape (bytesOf second'))
    (h : ¬ Misread svc sends first second rest) :
    svc.session peer false ⟨first ++ (second ++ rest), sends⟩ =
      svc.session peer false ⟨first ++ (second' ++ rest), sends⟩ := by
  by_cases hasked : Asked svc sends first
  · have h₁ := login_asked svc peer hfirst hasked (second ++ rest)
    have h₂ := login_asked svc peer hfirst hasked (second' ++ rest)
    rcases hfirst.left hasked.2 with hnil | ⟨gap, early, hgap, hleft⟩
    · -- the whole first line was consumed, and the password is read as the password
      have hnil : (readLine first).rest = [] := hnil
      rw [hnil, List.nil_append] at h₁ h₂
      obtain ⟨hstatus, hread⟩ := readLine_alike halike hrest
      apply session_congr
      · rw [h₁, h₂]
      · rw [h₁, h₂, ← hstatus]
        by_cases hok : (readLine (second ++ rest)).status = .ok
        · obtain ⟨left, hl, hl'⟩ := hread hok
          rw [hl, hl']
          exact serve_alike svc peer (alike_length halike) hshape
        · simp only [ne_eq, hok, not_false_eq_true, if_true]
    · -- its line feed was left, and the second line is what the session reads after the login
      have hleft : (readLine first).rest = gap ++ [.byte Utf8.lfByte early] := hleft
      rw [hleft] at h₁ h₂
      apply session_congr
      · rw [h₁, h₂]
      · rw [h₁, h₂]
        by_cases hok : (readLine (gap ++ [.byte Utf8.lfByte early])).status = .ok
        · rw [readLine_leftover hgap hok, readLine_leftover hgap hok]
          simp only [ne_eq, not_true_eq_false, if_false, Service.serve]
          split_ifs with hsent
          · have hcommand : (readLine (second ++ rest)).status ≠ .ok := by
              intro hcommand
              apply h
              refine ⟨fun i hi => ?_, hasked.2, by rw [hleft]; exact hok, hcommand⟩
              rcases Nat.lt_succ_iff_lt_or_eq.mp hi with hlt | rfl
              · exact hasked.1 i hlt
              · simpa using hsent
            have hlength : (second ++ rest).length = (second' ++ rest).length := by
              rw [List.length_append, List.length_append, halike.length_eq]
            simp only [Conn.sent]
            rw [commands_alike svc peer halike hrest hcommand, hlength]
          · rfl
        · have hread : ∀ tail, (readLine (gap ++ [.byte Utf8.lfByte early] ++ tail)).status =
              (readLine (gap ++ [.byte Utf8.lfByte early])).status := by
            intro tail
            rw [List.append_assoc, List.singleton_append, readLine, readLineFrom_append]
            rfl
          simp only [hread, ne_eq, hok, not_false_eq_true, if_true]
  · obtain ⟨events, reason, hlogin⟩ := login_refused svc peer hfirst hasked
    apply session_congr
    · rw [hlogin, hlogin]
    · rw [hlogin, hlogin]

/-- A second line that is taken for a command stands in the log. -/
theorem session_misread (hfirst : IsLine first) (h : Misread svc sends first second rest)
    (hne : (readLine (second ++ rest)).out ≠ []) :
    ∃ more, svc.session peer false ⟨first ++ (second ++ rest), sends⟩ =
      svc.event peer "_connection" svc.note ::
        (svc.recordPeerIdentification peer (readLine first).out ++
          Service.logLoginAttempt peer false (readLine first).out [] ::
          svc.event peer "_command"
            [.str (lit "command") (readLine (second ++ rest)).out, .num (lit "sequence") 1] ::
          more) := by
  have hlogin := login_asked svc peer hfirst
    ⟨fun i hi => h.sent i (Nat.lt_succ_of_lt hi), h.accepted⟩ (second ++ rest)
  rcases hfirst.left h.accepted with hnil | ⟨gap, early, hgap, hleft⟩
  · have hclosed := h.leftover
    rw [show (readLine first).rest = [] from hnil] at hclosed
    cases hclosed
  · have hleft : (readLine first).rest = gap ++ [.byte Utf8.lfByte early] := hleft
    have hok := h.leftover
    rw [hleft] at hok
    rw [hleft, readLine_leftover hgap hok] at hlogin
    have hwelcome : sends (0 + (svc.greetings + 1)) = true :=
      h.sent _ (by rw [Nat.zero_add]; exact Nat.lt_succ_self _)
    -- the login took one text for each greeting, one for the password, and one for the welcome
    obtain ⟨more, hmore⟩ := @commands_logged svc peer
      (fun i => sends (i + 1 + (svc.greetings + 1))) second rest h.command hne
      (second ++ rest).length
    rw [Service.session, hlogin]
    simp only [ne_eq, not_true_eq_false, if_false, Service.serve, hwelcome, if_true, Conn.sent, hmore]
    generalize (svc.commands peer ((second ++ rest).length + 1) 0 ⟨second ++ rest, _⟩).2 = reason
    refine ⟨more ++ [svc.event peer "_connection_closed"
      [.str (lit "reason") (Utf8.encodeAll reason)]], ?_⟩
    simp only [List.append_assoc, List.cons_append]

/-- Two sessions that differ in the second line leave one log exactly when that line is not
taken for a command. -/
theorem password_hidden_iff (hfirst : IsLine first)
    (halike : List.Forall₂ Arrival.Alike second second') (hrest : Ended rest)
    (hshape : passwordShape (bytesOf second) = passwordShape (bytesOf second')) :
    svc.session peer false ⟨first ++ (second ++ rest), sends⟩ =
        svc.session peer false ⟨first ++ (second' ++ rest), sends⟩ ↔
      (second = second' ∨ ¬ Misread svc sends first second rest) := by
  constructor
  · intro hsame
    by_contra hnot
    obtain ⟨hdiff, hmisread⟩ := not_or.mp hnot
    have hmisread : Misread svc sends first second rest := not_not.mp hmisread
    obtain ⟨hstatus, hread⟩ := readLine_alike halike hrest
    obtain ⟨left, hl, hl'⟩ := hread hmisread.command
    have hmisread' : Misread svc sends first second' rest :=
      { hmisread with command := hstatus ▸ hmisread.command }
    have hbytes : bytesOf second ≠ bytesOf second' := fun heq => hdiff (eq_of_alike halike heq)
    have hne : bytesOf second ≠ [] := by
      intro hnil
      apply hbytes
      have hlength := alike_length halike
      rw [hnil, List.length_nil] at hlength
      rw [hnil, List.length_eq_zero_iff.mp hlength.symm]
    have hne' : bytesOf second' ≠ [] := by
      rw [← List.length_pos_iff, ← alike_length halike]
      exact List.length_pos_iff.mpr hne
    obtain ⟨more, hmore⟩ := session_misread svc peer hfirst hmisread (by rw [hl]; exact hne)
    obtain ⟨more', hmore'⟩ := session_misread svc peer hfirst hmisread' (by rw [hl']; exact hne')
    rw [hmore, hmore', hl, hl'] at hsame
    obtain ⟨-, hsame⟩ := List.cons.inj hsame
    obtain ⟨-, hsame⟩ := List.cons.inj (List.append_cancel_left hsame)
    obtain ⟨hcommand, -⟩ := List.cons.inj hsame
    have hdetails := List.append_cancel_left (congrArg Event.details hcommand)
    obtain ⟨hpart, -⟩ := List.cons.inj hdetails
    exact hbytes (Part.str.inj hpart).2
  · rintro (rfl | h)
    · rfl
    · exact session_hidden svc peer hfirst halike hrest hshape h

/-! ## A client that is slow with its line feed -/

/-- The characters of a line, all in time. -/
def typedLine (text : String) : List Arrival := (ascii text).map fun c => .byte c true

/-- A line feed in time. -/
def lineEnd : List Arrival := [.byte Utf8.lfByte true]

/-- A name ended by CRLF, with the LF late. -/
def slowName : List Arrival :=
  typedLine "root" ++ [.byte crByte true, .byte Utf8.lfByte false]

def localPeer : Peer := ⟨(127, 0, 0, 1), 50000⟩

theorem alike_typedLine {s t : String} (hlength : (ascii s).length = (ascii t).length)
    (hs : ∀ c ∈ ascii s, Typed c) (ht : ∀ c ∈ ascii t, Typed c) :
    List.Forall₂ Arrival.Alike (typedLine s) (typedLine t) := by
  unfold typedLine
  generalize ascii s = xs at *
  generalize ascii t = ys at *
  induction xs generalizing ys with
  | nil =>
      rw [List.length_nil] at hlength
      rw [List.length_eq_zero_iff.mp hlength.symm]
      exact .nil
  | cons c xs ih =>
      cases ys with
      | nil => cases hlength
      | cons d ys =>
          obtain ⟨hc, hxs⟩ := List.forall_mem_cons.mp hs
          obtain ⟨hd, hys⟩ := List.forall_mem_cons.mp ht
          exact .cons (.typed true hc hd) (ih hxs ys hys (Nat.succ.inj hlength))

theorem isLine_slowName : IsLine slowName := by
  have hbody : ∀ xs rest : List Arrival, IsLine rest →
      (∀ a ∈ xs, a.value? ≠ some Utf8.lfByte ∧ a.value? ≠ some crByte) → IsLine (xs ++ rest) := by
    intro xs rest hrest hxs
    induction xs with
    | nil => exact hrest
    | cons a xs ih =>
        obtain ⟨ha, hxs⟩ := List.forall_mem_cons.mp hxs
        exact .cons ha.1 ha.2 (ih hxs)
  have hend : IsLine (.byte crByte true :: ([] ++ [.byte Utf8.lfByte false])) :=
    .crlf true false (by simp)
  exact hbody _ _ hend (by decide)

theorem ended_lineEnd : Ended lineEnd := .ending true [] (.inl rfl)

theorem alike_passwords : List.Forall₂ Arrival.Alike (typedLine "secret") (typedLine "hidden") :=
  alike_typedLine (by decide) (by decide +kernel) (by decide +kernel)

theorem shape_passwords :
    passwordShape (bytesOf (typedLine "secret")) = passwordShape (bytesOf (typedLine "hidden")) := by
  decide

/-- The two sides for two passwords and a line feed that is late. -/
theorem password_hidden_iff_slowName :
    telnet.session localPeer false ⟨slowName ++ (typedLine "secret" ++ lineEnd), fun _ => true⟩ =
        telnet.session localPeer false
          ⟨slowName ++ (typedLine "hidden" ++ lineEnd), fun _ => true⟩ ↔
      (typedLine "secret" = typedLine "hidden" ∨
        ¬ Misread telnet (fun _ => true) slowName (typedLine "secret") lineEnd) :=
  password_hidden_iff telnet localPeer isLine_slowName alike_passwords ended_lineEnd shape_passwords

/-- A password that follows a late line feed is logged as a command. -/
theorem password_logged :
    ¬ ∀ (svc : Service) (_ : svc = telnet ∨ svc = sshBanner) (peer : Peer) (sends : Nat → Bool)
      (first second second' rest : List Arrival), IsLine first →
      List.Forall₂ Arrival.Alike second second' → Ended rest →
      passwordShape (bytesOf second) = passwordShape (bytesOf second') →
      svc.session peer false ⟨first ++ (second ++ rest), sends⟩ =
        svc.session peer false ⟨first ++ (second' ++ rest), sends⟩ := by
  intro hall
  have hsame := hall telnet (.inl rfl) localPeer (fun _ => true) slowName (typedLine "secret")
    (typedLine "hidden") lineEnd isLine_slowName alike_passwords ended_lineEnd shape_passwords
  have hsecret : readLine (typedLine "secret" ++ lineEnd) = ⟨.ok, ascii "secret", []⟩ := by decide
  have hhidden : readLine (typedLine "hidden" ++ lineEnd) = ⟨.ok, ascii "hidden", []⟩ := by decide
  have hmisread : ∀ text, (readLine (typedLine text ++ lineEnd)).status = .ok →
      Misread telnet (fun _ => true) slowName (typedLine text) lineEnd := fun text hok =>
    { sent := fun _ _ => rfl
      accepted := by decide
      leftover := by decide
      command := hok }
  obtain ⟨more, hmore⟩ := session_misread telnet localPeer isLine_slowName
    (hmisread "secret" (by rw [hsecret])) (by rw [hsecret]; decide)
  obtain ⟨more', hmore'⟩ := session_misread telnet localPeer isLine_slowName
    (hmisread "hidden" (by rw [hhidden])) (by rw [hhidden]; decide)
  rw [hmore, hmore', hsecret, hhidden] at hsame
  obtain ⟨-, hsame⟩ := List.cons.inj hsame
  obtain ⟨-, hsame⟩ := List.cons.inj (List.append_cancel_left hsame)
  obtain ⟨hcommand, -⟩ := List.cons.inj hsame
  have hdetails := List.append_cancel_left (congrArg Event.details hcommand)
  exact absurd hdetails (by decide)

end IcsDeception.Decoy
