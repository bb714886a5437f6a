/-!
# Kinds of characters

Tables of the Unicode properties ID_Start and ID_Continue, and the word characters of patterns
(letters, marks, decimal digits, connectors and the join controls), which differ from ID_Continue
in a few listed places.
-/

namespace Componentry.Text

/-- A code lies in one of the runs of a table, which tells how many codes to pass over before each run
and how long it is. -/
def inRuns : List Nat → Nat → Bool
  | gap :: length :: rest, n =>
    gap ≤ n && (n - gap < length || inRuns rest (n - gap - length))
  | _, _ => false

/-- A digit of a table: figures, then capital and small letters. -/
def digitValue (c : Char) : Nat :=
  c.toNat - if c.isDigit then 48 else if c.isUpper then 55 else 61

/-- The numbers of a table. Digits have base 31, and 31 more if the number goes on. -/
def numbersFrom (value : Nat) : List Char → List Nat
  | [] => []
  | c :: cs =>
    let d := digitValue c
    if d < 31 then (value * 31 + d) :: numbersFrom 0 cs else numbersFrom (value * 31 + (d - 31)) cs

def numbers (table : String) : List Nat := numbersFrom 0 (table.toList.filter Char.isAlphanum)

def idStartRuns : List Nat := numbers
  "X3Q6QWG1A1415N1W01jO4CE57111Z551224116113111K1XL1ZF8aB1W7216WAX9R44WEWCW421Y611F272A321G11UTXRB1O
 W292415M419131NP7B5O17GWBWRWN31I17AFG48222M17113431G1D213E2A186422M17121212W0411J3G9131M17121531I
 1F2N1B8222M17121531U213F1H116331432111232333CM1WL8131N1G31Q31222U148131N1A1531U312F2H9131WA21G153
 83O65I3O191127WRWH12C7WR211151O111A12912511L4W11X181W5R5YMWCK1G6443132734DC1HW711512WC1fN14271114
 2WA142W2142711142F1WQ142X5W6GGXO263p02H1Q5XD3B7IDJEIED13FWLW4141X5XR7WA115X8AW0WIU25BWD4QWNN9WMXK
 1Y0WGH8WNUD2AWDQW5WA3AW52B5WC23WA41612315b6X2dU262W726281111111W02WM1711331734264D5317YN1D1GDY814
 12A11266111111G245541HWAXtDcC6432CW711512WP71GN9717171717171717mN3P975254XO451XS145WC1Y1HW1WHGlGb
 vKX2sWNX5WF2dL3GA2KWGGW02XIW892YA2XKKH13141NTWLEWJX063112BSANPT7WGS1G51AA51WAN318KN313WJ113225211
 1O32B73C6262697171WC1E6YMTgoCCN4WIdtKgP2YDW77C5511A1D151112121YFW2gMIX22WNW9CYN51ZBW5Q6QBXR362626
 23W4C1Q1J121F2EW3YUX7WMdJT3WIWGW1DU5W7AU2W54815WBa3IW54W54W98WLCB1F17121B1F17123WLCf19MA8O61WB19X
 76211WD12312NAN9W0X3J12AMAQ6QW7WP62X21F4131TWBT3TW481SRWNAMAJDIYHXBWOWKDWKDW5W7S9Nd2WB62G6WPTA18M
 WBIWFLRNCWMWQ221DWEW1PQW5T1218W431CWHE4L111W4I1PJ2X1711141F1A7WGW78222M17121531I1C5UA11211W711P11
 1WDWMI4K3UWHK211aTWGWA4W5WHK1WSWCD1X9RW67aUWDYNX2W082128121OF111Y182W8G111S1AW971L1BWFJ1IXBbDW2W0
 91W6H1WIUYJ7121W7L1P6121W1E1NWDdCJF11D1W3Z01XHyNY9YIHbAXs1Y4FWYIH6PZZR5nPcYLUWuQnB7W0HXHHUIWHG4W0
 L5JiTWEbPX2W1P2PWDXD51X4DX2211E59cq4WAW1Y4YMeWL417121eCF1T321E48hOXhEYE5D397Abc7XN1X9122122241C11
 171X31428171S141511371fU2P1P1W01P1W01P1W01P1W01P18WxFW066dDX0ZMWEA7G1fBUIWDkJScBU21bLW01312172592
 c7714121F1bBWSX671WcQ41R1211211A141111614111111312112111111111121124171414111A1H53151HZnIWij2W1Zm
 B2bV82ct2Fp2XmHmFWmIaZA5duR"

def idContinueRuns : List Nat := numbers
  "WHAW61XP1nQYJN1d35dHWE11121211XABWHW061Y872622142AN1URXTBFAW2991O4191315WC3WS9WBO1W2WN31I17A22AH3
 WP117222391A22AE123WP115422331KC31B3WP1181313K22AA613WP117222373A22AI1WS5331491EAG5WO117131472B22
 AH3WP117131472B22A31C4WO217131491A22AH3X814611186A22WU127C81AXP129B71AX026AB1111142WIK125B1W591Y7
 K1AC443132734DC1FrL399yT4S3T2U2X2W1912AW231BZJ1YPC4CAAZ4BWT5WQA1T2B6AME1W02CK5WGHBAH9C3UD2AWDEWHK
 8A6AYP31L416123bCX2lS2WI2J1YUD413CYb13ZH1Y3W1mR6YC2Y31WVbBAX714AW12XI2dO13141N541XL2WJIAA6IDBS8PD
 WD4WGEFAB1AAWGEC1822AW23WJ113225211WA552cJ8122AqXH1sOGGG32O3b6AW61W61qC1c91ZP5eEAWi331254W9341aA2
 nF48A6AW05f72XF6X8BWI4YT3WMFW0B22A4WEB71WEA63W5E1A52WD1C3WHE841CXKC6121a2C5A64WO217222391A22735X5
 91121141511E2XKI9A41XJKCAbR729R2XKHFAXJD8A6KWQF4AcPFaAAX8612241112CAYQ72731SAW9714819BWFGbC8ZCAWM
 818GAWPM1EYT6311217118AWH512158AWNAdH49211WH735DBamH16FgxPSXiHAXOAW75WS7PAm7Ak411WO74XJ1B2pi42ZfN
 AlMWF2NmF5368827U4ZO3WjMWJlGWO4WJ81E1M51FWhR71H271215Y71a579AgF1WUEl2EcR21AcF1217251k97YG75AZyFAv
 iq8cN"

def isIdStart (c : Char) : Bool :=
  if c.val < 0x80 then c.isAlpha else inRuns idStartRuns c.toNat

def isIdContinue (c : Char) : Bool :=
  if c.val < 0x80 then c.isAlphanum || c == '_'
  else inRuns idStartRuns c.toNat || inRuns idContinueRuns c.toNat

def idContinueNotWord : List Nat := numbers
  "aS1s61Zc49WqS1WxO1L1ZYB2Y11WszH1"

/-- Word characters outside ID_Continue: enclosing marks, circled letters, the vertical tilde and
the join controls. -/
def wordNotIdContinue : List Nat := numbers
  "WbD2axB1WhO2bL413WVGWLXjH1WWW13XvY8Q6Q6Q"

def isWord (c : Char) : Bool :=
  if c.val < 0x80 then c.isAlphanum || c == '_'
  else (isIdContinue c && !inRuns idContinueNotWord c.toNat) ||
    inRuns wordNotIdContinue c.toNat

def wordStarts (before : Option Char) (s : List Char) : Bool :=
  !(before.any isWord) && s.head?.any isWord

def wordEnds (s : List Char) : Bool :=
  !(s.head?.any isWord)

end Componentry.Text

namespace Componentry.Text.Quoted

/-! ### Quoted text in messages

The quote and the backslash are escaped, and so is every character that would not show as itself:
controls, separators other than the space, unassigned codes and marks that attach to the character
before them. -/

/-- Characters written by their code: other, separator and grapheme-extending characters. -/
def hiddenRuns : List Nat := numbers
  "0W1Y2W3C1o5YJ82647111K1c77aB1W72WJ23WF11121219R46HAB11WFLG1Y88162214W1211UTXRB1EWC973O4191317F1P5
 11B5W1GWBWQWO111484137A2T1218222M1711343112622211D2134O5116422M1712121243O4117A2311C119131M171215
 34811231F24C718218222M17121531216222F2134IB116331432111232333C5112331331LL6318131N1G3134J312224A7
 A1B131N1A15322112N3124A13EB131WA2112531312431A4Q221I3O19112792677A23CWH12B88DW6211151O111A1291251
 19A24W1O2R11111E1W5I15125WI8161DW6WE4161222P243G4D12261F1W911512h5142711142WA142W2142711142F1WQ14
 2X55T3Q6XO262pK1S3XR7IDJ329IED13FWL217812B93A6A6B5A6XR752W3115X8AW044234216713WB25BWD4Q6B3WQ223WP
 11911286DA6A6EXOWHA4381T9C2W1426WP112311DWH825F3X05WC2BB1D1741613215b6X2dU262W726281111111W02WM1F
 1E261J2319HO8WGH22R1D3W3X0ZG4qFMBLWwE2h5325WE11512WP72FN9717171717171717W2Y1W3Q1XRCbSQG1WA6G1XO4Y
 85WC1Y11XO9WH1zjT3WO9g7KWG41AW12XI268c4KH13141P254A6WP8X6ACOD1W78PB1CU6WH1242221D1B471P1WA6222B31
 8112A2W11WK1132252111OH28B6262697171WT4YO12143A6goCCN4WIdtKgP2YDW77C5511O151112121pUW1GGAMW41J144
 51ZB4a22W0362626233717D22C1Q1J121F2EW3YU534WE3XQ1D31WGWEZ7T3WIGR4W59U5W7AU1W64EWBa32A6W54W54W98WL
 BC1F17121B1F17123WLCf19MA8O61WB19X76211WD12312N1XA89WHJ125W23R5RW7WP4K2WGF4131TA9797X2W1W66C9WN3T
 2R5Q74C7XIXBWOWKDWK7WBCA6W78O82bMW01WB3122G689W8W98MB9MI44W7SKN911WNF74U1221CWI422214EP7A9W5519I8
 W413BWL9118421G1KBI1S324612X1711141F1B6WG13DA8218222M171215311114222231C7SA11211W71112F112311312W
 8WP82311L1113UWH1261121121248AaBWG1264212RW5WK821124BA6DJWC1112826A6KSR3112419NaUWG9121Y7XLC82128
 121O151264139AX882WB8414R1AW9624891623WFD129DXB7AXP13111XQW3EA691W7E116AT3W1P17121XD7121W7L19A661
 21W64211117A6WD4AcTJ249F1W5823NXO1FWJDyOY9YI15BbAXs1Y6DWYIH6PZZR5nPcYLUC33AWtTnB7W01A4XJ1A6U71AWH
 7FAA171L5JiTWRbCXT5P2PWDXD5WPBDX24E59cq4WAW1Y4YMeWL417121eCF1T321E48hOXhEYE5D397A2121ZXUd53j26NFH
 Y2YNWTcTAW82WT53M27U4WULX431YTKCKCXP9PZBXN1X9122122241C11171X31428171S141511371fU2eD2n4WO4WJ81E17
 WaOW066dDX0ZMWEA72A42fAUIWD4A51jUS4AbSU2B41b6W01312172592c7714121F1bB29WHX6714A42uAX6XEWUb841R121
 1211A141111614111111312112111111111121124171414111A1H53151HWL2dMWD4Y7CF2F1F1W6AaJWPTDWD4972E6ZUWV
 O3H3D3c16C41FC4WP8A6W98U2C42E9W8g38E2D3B3WQ114G2C4A7ZN1YAWX6Wij2W1ZmB2bV82ct2Fp2XmHmFWmIaZA5duRzf
 sH"

def codeDigits (n : Nat) : List Char :=
  Nat.toDigits 16 n

/-- One character of a quoted text. -/
def encodeChar (c : Char) : List Char :=
  if c == '"' then ['\\', '"']
  else if c == '\\' then ['\\', '\\']
  else if c == '\n' then ['\\', 'n']
  else if c == '\r' then ['\\', 'r']
  else if c == '\t' then ['\\', 't']
  else if c.toNat == 0 then ['\\', '0']
  else if 0x20 ≤ c.toNat && c.toNat < 0x7f then [c]
  else if inRuns hiddenRuns c.toNat then
    ['\\', 'u', '\x7b'] ++ codeDigits c.toNat ++ ['\x7d']
  else [c]

/-- The quoted form of a text. -/
def encode (s : String) : String :=
  String.ofList ('"' :: s.toList.flatMap encodeChar ++ ['"'])

end Componentry.Text.Quoted
