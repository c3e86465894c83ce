import Amqpgram.Grammar.Parser

/-! The three grammar files under abnf/, as they are shipped, and the rules that
the reader of grammar-parser.c finds in them. -/
namespace Amqpgram

/-- The text of abnf/grammar-spec. -/
def grammarSpec : CString := List.flatten [
  cstr "amqp                = protocol-header ; ALTERED: amqp-unit not defined anywhere\n",
  cstr "protocol-header     = literal-AMQP protocol-id protocol-version\n",
  cstr "literal-AMQP        = %d65.77.81.80                             ; \"AMQP\"\n",
  cstr "protocol-id         = %d0                                       ; Must be 0\n",
  cstr "protocol-version    = %d0.9.1                                   ; 0-9-1\n",
  cstr "method              = method-frame [content]                    ; ALTERED: Optional ",
  cstr "rules are enclosed with brackets\n",
  cstr "method-frame        = %d1 frame-properties method-payload frame-end\n",
  cstr "frame-properties    = channel payload-size\n",
  cstr "channel             = short-uint                                ; Non-zero\n",
  cstr "payload-size        = long-uint\n",
  cstr "method-payload      = class-id method-id *amqp-field\n",
  cstr "class-id            = %x00.01-FF.FF\n",
  cstr "method-id           = %x00.01-FF.FF\n",
  cstr "amqp-field          = BIT / OCTET / short-uint / long-uint / long-long-uint / ",
  cstr "short-string / long-string / timestamp / field-table\n",
  cstr "short-uint          = 2OCTET\n",
  cstr "long-uint           = 4OCTET\n",
  cstr "long-long-uint      = 8OCTET\n",
  cstr "short-string        = OCTET *string-char ; length + content\n",
  cstr "string-char         = %x01-FF ; ALTERED: does not fit RFC2234 or superior\n",
  cstr "long-string         = long-uint *OCTET ; length + content\n",
  cstr "timestamp           = long-long-uint ; 64-bit POSIX\n",
  cstr "field-table         = long-uint *field-value-pair\n",
  cstr "field-value-pair    = field-name field-value\n",
  cstr "field-name          = short-string\n",
  cstr "field-value         = %x74 boolean / %x62 short-short-int / %x42 short-short-uint / ",
  cstr "%x55 short-int / %x75 short-uint / %x49 long-int / %x69 long-uint / %x4c long-long-int ",
  cstr "/ %x6c long-long-uint / %x66 float / %x64 double / %x44 decimal-value / %x73 ",
  cstr "short-string / %x53 long-string / %x41 field-array / %x54 timestamp / %x46 field-table ",
  cstr "/ %x56                                   ; ALTERED: Case-sensitive strings should have ",
  cstr "its characters specified individually\n",
  cstr "boolean             = OCTET                                     ; 0 = FALSE, else TRUE\n",
  cstr "short-short-int     = OCTET\n",
  cstr "short-short-uint    = OCTET\n",
  cstr "short-int           = 2OCTET\n",
  cstr "long-int            = 4OCTET\n",
  cstr "long-long-int       = 8OCTET\n",
  cstr "float               = 4OCTET                                   ; IEEE-754\n",
  cstr "double              = 8OCTET                                   ; rfc1832 XDR double\n",
  cstr "decimal-value       = scale long-uint\n",
  cstr "scale               = OCTET                                     ; number of decimal ",
  cstr "digits\n",
  cstr "field-array         = long-int *field-value                     ; array of values\n",
  cstr "frame-end           = %xCE\n",
  cstr "content             = %d2 content-header *content-body\n",
  cstr "content-header      = frame-properties header-payload frame-end\n",
  cstr "header-payload      = content-class content-weight content-body-size property-flags ",
  cstr "property-list\n",
  cstr "content-class       = OCTET\n",
  cstr "content-weight      = %x00\n",
  cstr "content-body-size   = long-long-uint\n",
  cstr "property-flags      = 15*BIT %b0 / 15*BIT %b1 property-flags\n",
  cstr "property-list       = *amqp-field\n",
  cstr "content-body        = %d3 frame-properties body-payload frame-end\n",
  cstr "body-payload        = *OCTET\n",
  cstr "heartbeat           = %d8 %d0 %d0 frame-end\n"]

/-- The text of abnf/grammar-abnf. -/
def grammarAbnf : CString := List.flatten [
  cstr "ALPHA          =  %x41-5A / %x61-7A   ; A-Z / a-z\n",
  cstr "BIT            =  \"0\" / \"1\"\n",
  cstr "CHAR           =  %x01-7F\n",
  cstr "DIGIT          =  %x30-39\n",
  cstr "DQUOTE         =  %x22\n",
  cstr "HEXDIG         =  DIGIT / \"A\" / \"B\" / \"C\" / \"D\" / \"E\" / \"F\"\n",
  cstr "OCTET          =  %x00-FF\n"]

/-- The text of abnf/grammar-connection. -/
def grammarConnection : CString := List.flatten [
  cstr "connection              = open-connection *use-connection close-connection\n",
  cstr "open-connection         = C:protocol-header S:START C:START-OK *challenge S:TUNE ",
  cstr "C:TUNE-OK C:OPEN S:OPEN-OK\n",
  cstr "challenge               = S:SECURE C:SECURE-OK\n",
  cstr "use-connection          = C:CLOSE S:CLOSE-OK\n",
  cstr "close-connection        = C:CLOSE S:CLOSE-OK / S:CLOSE C:CLOSE-OK\n",
  cstr "\n",
  cstr "method                  = method-frame\n",
  cstr "channel                 = %x00.00\n",
  cstr "class-id                = %x00.0A\n",
  cstr "method-payload          = class-id method-id method-properties\n",
  cstr "\n",
  cstr "; entries starting with <\"m\" %d0-%d99 \"-\"> are to substitute existing fields in the ",
  cstr "overall grammar for the method of id equal to the numerical part of the prefix\n",
  cstr "\n",
  cstr "\n",
  cstr "m11-method-id           = %x00.0B\n",
  cstr "m11-method-properties = client-properties mechanism response locale\n",
  cstr "client-properties = client-properties-length client-properties-payload\n",
  cstr "\n",
  cstr "; client-properties-payload = %d07 \"product\" %x53 product-value %d07 \"version\" %x53 ",
  cstr "version-value %d08 \"platform\" %x53 platform-value\n",
  cstr "\n",
  cstr "client-properties-payload = %x00.56\n",
  cstr "\n",
  cstr "product-value           = long-string\n",
  cstr "version-value           = long-string\n",
  cstr "platform-value          = long-string\n",
  cstr "\n",
  cstr "mechanism = %d5 %x50.4C.41.49.4E ; PLAIN\n",
  cstr "response = message-length message\n",
  cstr "locale = %d5 %x65.6E.5F.55.53 ; en_US\n",
  cstr "\n",
  cstr "m31-method-id           = %x00.1F\n",
  cstr "m31-method-properties   = channel-max frame-max heartbeat-time\n",
  cstr "channel-max             = short-int\n",
  cstr "frame-max               = long-int\n",
  cstr "heartbeat-time          = short-int \n",
  cstr "\n",
  cstr "m40-method-id           = %x00.28\n",
  cstr "m40-method-properties   = virtual-host %d0 %d0\n",
  cstr "\n",
  cstr "m50-method-id           = %x00.32\n",
  cstr "m50-method-properties   = reply-code reply-text m50-class-id-val m50-method-id-val\n",
  cstr "m50-class-id-val        = class-id  ; To be overwritten\n",
  cstr "m50-method-id-val       = method-id ; To be overwritten\n",
  cstr "reply-code              = short-int\n",
  cstr "reply-text              = shortstr\n",
  cstr "\n",
  cstr "m51-method-id           = %x00.33\n",
  cstr "\n",
  cstr "\n",
  cstr "; RFC4616 : PLAIN\n",
  cstr "\n",
  cstr "message   = [authzid] UTF8NUL authcid UTF8NUL passwd ;\n",
  cstr "authcid   = 1*SAFE ; MUST accept up to 255 octets\n",
  cstr "authzid   = 1*SAFE ; MUST accept up to 255 octets\n",
  cstr "passwd    = 1*SAFE ; MUST accept up to 255 octets\n",
  cstr "UTF8NUL   = %x00 ; UTF-8 encoded NUL character\n",
  cstr "\n",
  cstr "SAFE      = UTF1 / UTF2 / UTF3 / UTF4\n",
  cstr "            ;; any UTF-8 encoded Unicode character except NUL\n",
  cstr "\n",
  cstr "UTF1      = %x01-7F ;; except NUL\n",
  cstr "UTF2      = %xC2-DF UTF0\n",
  cstr "UTF3      = %xE0 %xA0-BF UTF0 / %xE1-EC 2UTF0 / %xED %x80-9F UTF0 / %xEE-EF 2UTF0\n",
  cstr "UTF4      = %xF0 %x90-BF 2UTF0 / %xF1-F3 3UTF0 / %xF4 %x80-8F 2UTF0\n",
  cstr "UTF0      = %x80-BF\n"]

def specRules : List (CString × GrammarEntry) := [
  (cstr "amqp", .string (cstr "protocol-header")),
  (cstr "protocol-header", .string (cstr "literal-AMQP protocol-id protocol-version")),
  (cstr "literal-AMQP", .string (cstr "%d65.77.81.80")),
  (cstr "protocol-id", .string (cstr "%d0")),
  (cstr "protocol-version", .string (cstr "%d0.9.1")),
  (cstr "method", .string (cstr "method-frame [content]")),
  (cstr "method-frame", .string (cstr "%d1 frame-properties method-payload frame-end")),
  (cstr "frame-properties", .string (cstr "channel payload-size")),
  (cstr "channel", .string (cstr "short-uint")),
  (cstr "payload-size", .string (cstr "long-uint")),
  (cstr "method-payload", .string (cstr "class-id method-id *amqp-field")),
  (cstr "class-id", .string (cstr "%x00.01-FF.FF")),
  (cstr "method-id", .string (cstr "%x00.01-FF.FF")),
  (cstr "amqp-field", .stringArray [cstr "BIT", cstr "OCTET", cstr "short-uint", cstr "long-uint",
    cstr "long-long-uint", cstr "short-string", cstr "long-string", cstr "timestamp",
    cstr "field-table"]),
  (cstr "short-uint", .string (cstr "2OCTET")),
  (cstr "long-uint", .string (cstr "4OCTET")),
  (cstr "long-long-uint", .string (cstr "8OCTET")),
  (cstr "short-string", .string (cstr "OCTET *string-char")),
  (cstr "string-char", .string (cstr "%x01-FF")),
  (cstr "long-string", .string (cstr "long-uint *OCTET")),
  (cstr "timestamp", .string (cstr "long-long-uint")),
  (cstr "field-table", .string (cstr "long-uint *field-value-pair")),
  (cstr "field-value-pair", .string (cstr "field-name field-value")),
  (cstr "field-name", .string (cstr "short-string")),
  (cstr "field-value", .stringArray [cstr "%x74 boolean", cstr "%x62 short-short-int",
    cstr "%x42 short-short-uint", cstr "%x55 short-int", cstr "%x75 short-uint",
    cstr "%x49 long-int", cstr "%x69 long-uint", cstr "%x4c long-long-int",
    cstr "%x6c long-long-uint", cstr "%x66 float", cstr "%x64 double", cstr "%x44 decimal-value",
    cstr "%x73 short-string", cstr "%x53 long-string", cstr "%x41 field-array",
    cstr "%x54 timestamp", cstr "%x46 field-table", cstr "%x56"]),
  (cstr "boolean", .string (cstr "OCTET")),
  (cstr "short-short-int", .string (cstr "OCTET")),
  (cstr "short-short-uint", .string (cstr "OCTET")),
  (cstr "short-int", .string (cstr "2OCTET")),
  (cstr "long-int", .string (cstr "4OCTET")),
  (cstr "long-long-int", .string (cstr "8OCTET")),
  (cstr "float", .string (cstr "4OCTET")),
  (cstr "double", .string (cstr "8OCTET")),
  (cstr "decimal-value", .string (cstr "scale long-uint")),
  (cstr "scale", .string (cstr "OCTET")),
  (cstr "field-array", .string (cstr "long-int *field-value")),
  (cstr "frame-end", .string (cstr "%xCE")),
  (cstr "content", .string (cstr "%d2 content-header *content-body")),
  (cstr "content-header", .string (cstr "frame-properties header-payload frame-end")),
  (cstr "header-payload",
    .string (cstr "content-class content-weight content-body-size property-flags property-list")),
  (cstr "content-class", .string (cstr "OCTET")),
  (cstr "content-weight", .string (cstr "%x00")),
  (cstr "content-body-size", .string (cstr "long-long-uint")),
  (cstr "property-flags", .stringArray [cstr "15*BIT %b0", cstr "15*BIT %b1 property-flags"]),
  (cstr "property-list", .string (cstr "*amqp-field")),
  (cstr "content-body", .string (cstr "%d3 frame-properties body-payload frame-end")),
  (cstr "body-payload", .string (cstr "*OCTET")),
  (cstr "heartbeat", .string (cstr "%d8 %d0 %d0 frame-end"))]

def abnfRules : List (CString × GrammarEntry) := [
  (cstr "ALPHA", .stringArray [cstr "%x41-5A", cstr "%x61-7A"]),
  (cstr "BIT", .stringArray [cstr "\"0\"", cstr "\"1\""]),
  (cstr "CHAR", .string (cstr "%x01-7F")),
  (cstr "DIGIT", .string (cstr "%x30-39")),
  (cstr "DQUOTE", .string (cstr "%x22")),
  (cstr "HEXDIG", .stringArray [cstr "DIGIT", cstr "\"A\"", cstr "\"B\"", cstr "\"C\"",
    cstr "\"D\"", cstr "\"E\"", cstr "\"F\""]),
  (cstr "OCTET", .string (cstr "%x00-FF"))]

/-- The rules of abnf/grammar-connection. A commented-out rule keeps its `;` in its key. -/
def connectionRules : List (CString × GrammarEntry) := [
  (cstr "connection", .string (cstr "open-connection *use-connection close-connection")),
  (cstr "open-connection", .string (cstr
    "C:protocol-header S:START C:START-OK *challenge S:TUNE C:TUNE-OK C:OPEN S:OPEN-OK")),
  (cstr "challenge", .string (cstr "S:SECURE C:SECURE-OK")),
  (cstr "use-connection", .string (cstr "C:CLOSE S:CLOSE-OK")),
  (cstr "close-connection", .stringArray [cstr "C:CLOSE S:CLOSE-OK", cstr "S:CLOSE C:CLOSE-OK"]),
  (cstr "method", .string (cstr "method-frame")),
  (cstr "channel", .string (cstr "%x00.00")),
  (cstr "class-id", .string (cstr "%x00.0A")),
  (cstr "method-payload", .string (cstr "class-id method-id method-properties")),
  (cstr "m11-method-id", .string (cstr "%x00.0B")),
  (cstr "m11-method-properties", .string (cstr "client-properties mechanism response locale")),
  (cstr "client-properties", .string (cstr "client-properties-length client-properties-payload")),
  (cstr "; client-properties-payload",
    .string (cstr "%d07 \"product\" %x53 product-value %d07 \"version\" %x53 version-value %d08 \"platform\" %x53 platform-value")),
  (cstr "client-properties-payload", .string (cstr "%x00.56")),
  (cstr "product-value", .string (cstr "long-string")),
  (cstr "version-value", .string (cstr "long-string")),
  (cstr "platform-value", .string (cstr "long-string")),
  (cstr "mechanism", .string (cstr "%d5 %x50.4C.41.49.4E")),
  (cstr "response", .string (cstr "message-length message")),
  (cstr "locale", .string (cstr "%d5 %x65.6E.5F.55.53")),
  (cstr "m31-method-id", .string (cstr "%x00.1F")),
  (cstr "m31-method-properties", .string (cstr "channel-max frame-max heartbeat-time")),
  (cstr "channel-max", .string (cstr "short-int")),
  (cstr "frame-max", .string (cstr "long-int")),
  (cstr "heartbeat-time", .string (cstr "short-int")),
  (cstr "m40-method-id", .string (cstr "%x00.28")),
  (cstr "m40-method-properties", .string (cstr "virtual-host %d0 %d0")),
  (cstr "m50-method-id", .string (cstr "%x00.32")),
  (cstr "m50-method-properties",
    .string (cstr "reply-code reply-text m50-class-id-val m50-method-id-val")),
  (cstr "m50-class-id-val", .string (cstr "class-id")),
  (cstr "m50-method-id-val", .string (cstr "method-id")),
  (cstr "reply-code", .string (cstr "short-int")),
  (cstr "reply-text", .string (cstr "shortstr")),
  (cstr "m51-method-id", .string (cstr "%x00.33")),
  (cstr "message", .string (cstr "[authzid] UTF8NUL authcid UTF8NUL passwd")),
  (cstr "authcid", .string (cstr "1*SAFE")),
  (cstr "authzid", .string (cstr "1*SAFE")),
  (cstr "passwd", .string (cstr "1*SAFE")),
  (cstr "UTF8NUL", .string (cstr "%x00")),
  (cstr "SAFE", .stringArray [cstr "UTF1", cstr "UTF2", cstr "UTF3", cstr "UTF4"]),
  (cstr "UTF1", .string (cstr "%x01-7F")),
  (cstr "UTF2", .string (cstr "%xC2-DF UTF0")),
  (cstr "UTF3", .stringArray [cstr "%xE0 %xA0-BF UTF0", cstr "%xE1-EC 2UTF0",
    cstr "%xED %x80-9F UTF0", cstr "%xEE-EF 2UTF0"]),
  (cstr "UTF4", .stringArray [cstr "%xF0 %x90-BF 2UTF0", cstr "%xF1-F3 3UTF0",
    cstr "%xF4 %x80-8F 2UTF0"]),
  (cstr "UTF0", .string (cstr "%x80-BF"))]

theorem fileRules_spec : fileRules grammarSpec = .ok specRules := by decide +kernel
theorem fileRules_abnf : fileRules grammarAbnf = .ok abnfRules := by decide +kernel
theorem fileRules_connection : fileRules grammarConnection = .ok connectionRules := by
  decide +kernel

/-- The grammar `setup_protocol_env` loads, the later file over the earlier. -/
def protocolGrammar : Grammar := insertRules createGrammar (specRules ++ abnfRules)

def connectionGrammar : Grammar := insertRules createGrammar connectionRules

theorem grammarInit_protocol : grammarInit grammarSpec grammarAbnf = .ok protocolGrammar :=
  grammarInit_eq fileRules_spec fileRules_abnf

theorem generateGrammar_connection :
    generateGrammar grammarConnection = .ok connectionGrammar :=
  populateGrammar_eq fileRules_connection _

end Amqpgram
